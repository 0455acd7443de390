import Xv6.Bio.Coherence

/-! Any number of processes read, change and write blocks through the cache, and see one map from
addresses to contents. -/

namespace Xv6.Bio
open Lib Lib.Transition Cache Function Option

inductive Event (β : Type) where
  | read (a : Addr) (data : β)
  | stored (a : Addr) (data : β)
  deriving DecidableEq

structure State (ι β : Type) where
  cache : Cache ι β
  disk : Addr → β
  -- the arguments of the call of `bread` that a process is in, or was in last
  asked : ι → Addr
  -- the latest event first
  history : List (Event β)

inductive Label (ι β : Type) where
  | bget (i : ι) (a : Addr) (k : Fin NBUF)
  | bread (i : ι)
  | modify (i : ι) (k : Fin NBUF) (data : β)
  | logWrite (i : ι) (k : Fin NBUF)
  | bwrite (i : ι) (k : Fin NBUF)
  | brelse (i : ι) (k : Fin NBUF)
  | drop (i : ι)

section Step

variable {ι β : Type} [DecidableEq ι] (s : State ι β)

def bread (i : ι) : Option (State ι β) :=
  match s.cache.call i with
  | .waiting k =>
    -- `iderw` panics on a request that is not for disk 1
    if (s.cache.buf k).valid ∨ (s.cache.buf k).addr.1 = 1 then
      (s.cache.acquiresleep s.disk i).map fun out =>
        { s with cache := out.2, disk := out.1, history := .read (s.asked i) (out.2.buf k).data :: s.history }
    else none
  | _ => none

/-- A buffer is changed only to pass it to `log_write` or `bwrite`. -/
def step : Label ι β → Option (State ι β)
  | .bget i a k =>
    (s.cache.bget i a k).map fun c => { s with cache := c, asked := Function.update s.asked i a }
  | .bread i => bread s i
  | .modify i k data =>
    if s.cache.call i = .idle ∧ (s.cache.buf k).owner = some i then
      some { s with cache := s.cache.modify k data, history := .stored (s.cache.buf k).addr data :: s.history }
    else none
  | .logWrite i k =>
    if s.cache.call i = .idle ∧ (s.cache.buf k).owner = some i then some { s with cache := s.cache.pin k } else none
  | .bwrite i k =>
    if (s.cache.buf k).addr.1 = 1 then
      (s.cache.bwrite s.disk i k (s.cache.buf k).data).map fun out => { s with cache := out.2, disk := out.1 }
    else none
  | .brelse i k =>
    if (s.cache.buf k).changed then none else (s.cache.releasesleep i k).map fun c => { s with cache := c }
  | .drop i => (s.cache.drop i).map fun c => { s with cache := c }

end Step

variable {ι β : Type}

def latest (original : Addr → β) : List (Event β) → Addr → β
  | [] => original
  | .read _ _ :: earlier => latest original earlier
  | .stored a data :: earlier => Function.update (latest original earlier) a data

/-- Every read returned the contents that the block had then. -/
def Faithful (original : Addr → β) : List (Event β) → Prop
  | [] => True
  | .read a data :: earlier => data = latest original earlier a ∧ Faithful original earlier
  | .stored _ _ :: earlier => Faithful original earlier

/-- Nobody is using the cache, and only dirty buffers may differ from the disk. -/
structure Settled (s : State ι β) : Prop where
  call : ∀ i, s.cache.call i = .idle
  owner : ∀ k, (s.cache.buf k).owner = none
  refcnt : ∀ k, (s.cache.buf k).refcnt = 0
  changed : ∀ k, (s.cache.buf k).changed = false
  unique : ∀ j k, (s.cache.buf j).addr = (s.cache.buf k).addr → (s.cache.buf j).addr.1 ≠ 0 → j = k
  unused : ∀ k, (s.cache.buf k).valid = false → (s.cache.buf k).addr.1 = 0 ∧ (s.cache.buf k).dirty = false
  dev : ∀ k, (s.cache.buf k).valid = true → (s.cache.buf k).addr.1 = 1 ∧ (s.cache.buf k).addr.2 < FSSIZE
  clean : ∀ k, (s.cache.buf k).valid = true → (s.cache.buf k).dirty = false →
    (s.cache.buf k).data = s.disk (s.cache.buf k).addr
  history : s.history = []

def contents (s : State ι β) (a : Addr) : β :=
  match (List.finRange NBUF).find? fun k => (s.cache.buf k).valid && (s.cache.buf k).addr = a with
  | some k => (s.cache.buf k).data
  | none => s.disk a

structure Inv [Fintype ι] (original : Addr → β) (s : State ι β) : Prop where
  coherent : Coherent s.cache s.disk (latest original s.history)
  dev : ∀ k, (s.cache.buf k).valid = true → (s.cache.buf k).addr.1 = 1
  used : ∀ k, (s.cache.buf k).addr.1 ≠ 0 → (s.cache.buf k).valid = true ∨ ∃ i, s.cache.call i = .waiting k
  asked : ∀ i k, s.cache.call i = .waiting k → (s.cache.buf k).addr = s.asked i
  faithful : Faithful original s.history

variable [Fintype ι] {original : Addr → β} {s t : State ι β}

theorem Settled.coherent (settled : Settled s) : Coherent s.cache s.disk (contents s) where
  unique := settled.unique
  refs k := by simp [settled.refcnt k, settled.owner k, settled.call, Call.refs]
  ok k := by
    refine ⟨fun own => (own (settled.owner k)).elim, fun dirty => ?_, fun changed => ?_, fun valid dev => ?_,
      fun valid => (settled.dev k valid).2⟩
    · by_contra invalid
      simp [settled.unused k (by simpa using invalid)] at dirty
    · simp [settled.changed k] at changed
    · unfold contents
      split
      case h_1 j found =>
        have cached := List.find?_some found
        simp only [Bool.and_eq_true, decide_eq_true_eq] at cached
        rw [settled.unique j k cached.2 (cached.2 ▸ dev)]
      case h_2 nothing =>
        have absent := List.find?_eq_none.mp nothing k (List.mem_finRange k)
        simp [valid] at absent
  fresh a dev := by
    unfold contents
    split
    case h_1 k found =>
      have cached := List.find?_some found
      simp only [Bool.and_eq_true, decide_eq_true_eq] at cached
      cases dirty : (s.cache.buf k).dirty with
      | false => exact .inl (by rw [settled.clean k cached.1 dirty, cached.2])
      | true => exact .inr ⟨k, cached.2, cached.1, .inl dirty⟩
    case h_2 => exact .inl rfl

theorem Inv.settled (settled : Settled s) : Inv (contents s) s where
  coherent := by rw [settled.history]; exact settled.coherent
  dev k valid := (settled.dev k valid).1
  used k dev := .inl (by
    by_contra invalid
    exact dev (settled.unused k (by simpa using invalid)).1)
  asked i k waits := by simp [settled.call i] at waits
  faithful := by rw [settled.history]; exact trivial

theorem Inv.one (inv : Inv original s) {k : Fin NBUF} (others : ∀ j, j ≠ k → t.cache.buf j = s.cache.buf j)
    (coherent : Coherent t.cache t.disk (latest original t.history))
    (dev : (t.cache.buf k).valid = true → (t.cache.buf k).addr.1 = 1)
    (used : (t.cache.buf k).addr.1 ≠ 0 → (t.cache.buf k).valid = true ∨ ∃ i, t.cache.call i = .waiting k)
    (waits : ∀ i j, s.cache.call i = .waiting j → t.cache.call i = .waiting j ∨ j = k)
    (asked : ∀ i k, t.cache.call i = .waiting k → (t.cache.buf k).addr = t.asked i)
    (faithful : Faithful original t.history) : Inv original t where
  coherent := coherent
  dev j valid := by
    by_cases here : j = k
    · subst here
      exact dev valid
    · rw [others j here] at valid ⊢
      exact inv.dev j valid
  used j device := by
    by_cases here : j = k
    · subst here
      exact used device
    · rw [others j here] at device ⊢
      refine (inv.used j device).imp id fun ⟨i, waiting⟩ => ⟨i, ?_⟩
      exact (waits i j waiting).resolve_right here
  asked := asked
  faithful := faithful

variable [DecidableEq ι] {i : ι} {k : Fin NBUF} {a : Addr}

omit [Fintype ι] in
theorem set_goto_of_ne (c : Cache ι β) {b : Buf ι β} {call : Call} {j : Fin NBUF} (other : j ≠ k) :
    ((c.set k b).goto i call).buf j = c.buf j := by
  rw [goto_buf, set_buf_of_ne other]

theorem Inv.bget (inv : Inv original s) {c : Cache ι β} (taken : s.cache.bget i a k = some c) :
    Inv original { s with cache := c, asked := update s.asked i a } := by
  have coherent := inv.coherent.bget taken
  have asked (j : ι) (l : Fin NBUF) (waits : c.call j = .waiting l) :
      (c.buf l).addr = update s.asked i a j := by
    by_cases mine : j = i
    · subst mine
      cases (bget_call taken).1.symm.trans waits
      rw [update_self]
      exact (bget_has taken).1
    · rw [(bget_call taken).2 j mine] at waits
      rw [update_of_ne mine]
      exact (inv.coherent.has_bget ⟨inv.asked j l waits, .inr waits⟩ taken).1
  have used := (bget_call taken).1
  have waits (j : ι) (l : Fin NBUF) (waiting : s.cache.call j = .waiting l) : c.call j = .waiting l ∨ l = k := by
    have other : j ≠ i := by
      rintro rfl
      simp [(bget_cases taken).1] at waiting
    exact .inl ((bget_call taken).2 j other ▸ waiting)
  obtain ⟨-, ⟨-, rfl⟩ | ⟨-, -, -, rfl⟩⟩ := bget_cases taken
  · refine inv.one (fun j other => set_goto_of_ne _ other) coherent (fun valid => ?_) (fun _ => .inr ⟨i, used⟩) waits
      asked inv.faithful
    simp only [goto_buf, set_buf_self] at valid ⊢
    exact inv.dev k valid
  · refine inv.one (fun j other => set_goto_of_ne _ other) coherent (fun valid => ?_) (fun _ => .inr ⟨i, used⟩) waits
      asked inv.faithful
    simp at valid

theorem Inv.bread (inv : Inv original s) (taken : bread s i = some t) : Inv original t := by
  unfold Bio.bread at taken
  split at taken
  case h_2 => cases taken
  case h_1 k waits =>
    split at taken
    case isFalse => cases taken
    case isTrue device =>
      obtain ⟨out, acquired, rfl⟩ := map_eq_some_iff.mp taken
      have dev : (s.cache.buf k).addr.1 = 1 := by
        rcases device with valid | dev
        · exact inv.dev k valid
        · exact dev
      obtain ⟨same, coherent⟩ := inv.coherent.acquiresleep (fun l here => by
        cases waits.symm.trans here
        simp [dev]) acquired
      have has := has_acquiresleep ⟨inv.asked i k waits, .inr waits⟩ acquired
      obtain ⟨l, here, -, held⟩ := acquiresleep_cases acquired
      cases waits.symm.trans here
      have call : out.2.call = update s.cache.call i .idle := by
        rcases held with ⟨-, rfl⟩ | ⟨-, -, rfl⟩ <;> rfl
      have owner : (out.2.buf k).owner = some i := has.owner_of_idle (by simp [call])
      have others (j : Fin NBUF) (other : j ≠ k) : out.2.buf j = s.cache.buf j := by
        rcases held with ⟨-, rfl⟩ | ⟨-, -, rfl⟩ <;> exact set_goto_of_ne _ other
      have addr : (out.2.buf k).addr = (s.cache.buf k).addr := has.1.trans (inv.asked i k waits).symm
      have valid : (out.2.buf k).valid = true := (coherent.ok k).locked (by simp [owner])
      have data : (out.2.buf k).data = latest original s.history (s.asked i) := by
        rw [coherent.data_eq owner (by simp [addr, dev]), has.1]
      refine inv.one (k := k) others (same ▸ coherent) (fun _ => addr ▸ dev) (fun _ => .inl valid)
        (fun j l waiting => ?_) (fun j l waiting => ?_) ⟨data, inv.faithful⟩
      · by_cases mine : j = i
        · subst mine
          cases waits.symm.trans waiting
          exact .inr rfl
        · exact .inl (by simpa only [call, update_of_ne mine] using waiting)
      · by_cases mine : j = i
        · simp [call, mine] at waiting
        · simp only [call, update_of_ne mine] at waiting
          exact (has_acquiresleep ⟨inv.asked j l waiting, .inr waiting⟩ acquired).1

omit [DecidableEq ι] in
theorem Inv.store (inv : Inv original s) {b : Buf ι β} {disk : Addr → β} {history : List (Event β)}
    (own : (s.cache.buf k).owner = some i) (addr : b.addr = (s.cache.buf k).addr) (valid : b.valid = true)
    (coherent : Coherent (s.cache.set k b) disk (latest original history)) (faithful : Faithful original history) :
    Inv original { s with cache := s.cache.set k b, disk := disk, history := history } := by
  refine inv.one (k := k) (fun j other => set_buf_of_ne other) coherent (fun _ => ?_) (fun _ => ?_)
    (fun j l waits => .inl waits) (fun j l waits => ?_) faithful
  · rw [set_buf_self, addr]
    exact inv.dev k ((inv.coherent.ok k).locked (by simp [own]))
  · rw [set_buf_self]
    exact .inl valid
  · rw [set_call] at waits
    by_cases here : l = k
    · subst here
      rw [set_buf_self, addr]
      exact inv.asked j l waits
    · rw [set_buf_of_ne here]
      exact inv.asked j l waits

theorem Inv.release (inv : Inv original s) {b : Buf ι β} {call : Call}
    (coherent : Coherent ((s.cache.set k b).goto i call) s.disk (latest original s.history))
    (addr : b.addr = (s.cache.buf k).addr) (valid : b.valid = (s.cache.buf k).valid)
    (before : ∀ l, s.cache.call i ≠ .waiting l) (after : ∀ l, call ≠ .waiting l) :
    Inv original { s with cache := (s.cache.set k b).goto i call } := by
  have waits (j : ι) (l : Fin NBUF) :
      ((s.cache.set k b).goto i call).call j = .waiting l ↔ s.cache.call j = .waiting l := by
    by_cases mine : j = i
    · subst mine
      rw [goto_call_self]
      exact iff_of_false (after l) (before l)
    · rw [goto_call_of_ne _ _ mine, set_call]
  have addrs (l : Fin NBUF) : (((s.cache.set k b).goto i call).buf l).addr = (s.cache.buf l).addr := by
    by_cases here : l = k
    · subst here
      simpa using addr
    · rw [set_goto_of_ne _ here]
  refine inv.one (fun j other => set_goto_of_ne _ other) coherent (fun now => ?_) (fun device => ?_)
    (fun j l waiting => .inl ((waits j l).mpr waiting)) (fun j l waiting => ?_) inv.faithful
  · rw [addrs]
    exact inv.dev k (by simpa [valid] using now)
  · rw [addrs] at device
    simpa [valid, waits] using inv.used k device
  · rw [addrs]
    exact inv.asked j l ((waits j l).mp waiting)

theorem step_inv {l : Label ι β} (inv : Inv original s) (taken : step s l = some t) : Inv original t := by
  cases l with
  | bget i a k =>
    obtain ⟨c, got, rfl⟩ := map_eq_some_iff.mp taken
    exact inv.bget got
  | bread i => exact inv.bread taken
  | modify i k data =>
    obtain ⟨⟨-, own⟩, rfl⟩ := Transition.of_guard taken
    have valid := (inv.coherent.ok k).locked (by simp [own])
    exact inv.store own rfl valid (inv.coherent.modify own (by simp [inv.dev k valid]) data) inv.faithful
  | logWrite i k =>
    obtain ⟨⟨-, own⟩, rfl⟩ := Transition.of_guard taken
    have valid := (inv.coherent.ok k).locked (by simp [own])
    exact inv.store own rfl valid (inv.coherent.pin own (by simp [inv.dev k valid])) inv.faithful
  | bwrite i k =>
    obtain ⟨dev, written⟩ := ite_none_right_eq_some.mp taken
    obtain ⟨out, wrote, rfl⟩ := map_eq_some_iff.mp written
    have coherent := inv.coherent.bwrite (by simp [dev]) wrote
    obtain ⟨-, own, -, rfl⟩ := bwrite_eq wrote
    rw [inv.coherent.data_eq own (by simp [dev]), update_eq_self] at coherent
    rw [inv.coherent.data_eq own (by simp [dev])]
    exact inv.store own rfl rfl coherent inv.faithful
  | brelse i k =>
    simp only [step, ite_none_left_eq_some] at taken
    obtain ⟨logged, released⟩ := taken
    obtain ⟨c, gave, rfl⟩ := map_eq_some_iff.mp released
    have coherent := inv.coherent.releasesleep (by simpa using logged) gave
    obtain ⟨idle, own, rfl⟩ := releasesleep_eq gave
    exact inv.release coherent rfl rfl (by simp [idle]) (by simp)
  | drop i =>
    obtain ⟨c, dropped, rfl⟩ := map_eq_some_iff.mp taken
    have coherent := inv.coherent.drop dropped
    obtain ⟨k, dropping, rfl⟩ := drop_eq dropped
    exact inv.release coherent rfl rfl (by simp [dropping]) (by simp)

omit [Fintype ι] in
theorem addr_of_step {l : Label ι β} (taken : step s l = some t) (k : Fin NBUF) :
    (t.cache.buf k).addr = (s.cache.buf k).addr ∨ (s.cache.buf k).refcnt = 0 ∧ (s.cache.buf k).dirty = false := by
  have keeps {c : Cache ι β} {j : Fin NBUF} {b : Buf ι β} (addr : b.addr = (c.buf j).addr) :
      ((c.set j b).buf k).addr = (c.buf k).addr := by
    by_cases here : k = j
    · subst here
      rw [set_buf_self, addr]
    · rw [set_buf_of_ne here]
  cases l with
  | bget i a j =>
    obtain ⟨c, got, rfl⟩ := map_eq_some_iff.mp taken
    obtain ⟨-, ⟨-, rfl⟩ | ⟨-, free, clean, rfl⟩⟩ := bget_cases got
    · exact .inl (keeps rfl)
    · by_cases here : k = j
      · exact .inr ⟨here ▸ free, here ▸ clean⟩
      · exact .inl (by rw [set_goto_of_ne _ here])
  | bread i =>
    simp only [step, bread] at taken
    split at taken
    case h_2 => cases taken
    case h_1 =>
      simp only [ite_none_right_eq_some] at taken
      obtain ⟨out, acquired, rfl⟩ := map_eq_some_iff.mp taken.2
      obtain ⟨j, -, -, ⟨-, rfl⟩ | ⟨-, -, rfl⟩⟩ := acquiresleep_cases acquired
      · exact .inl (keeps rfl)
      · refine .inl (keeps ?_)
        unfold iderw
        split <;> rfl
  | modify i j data | logWrite i j =>
    obtain ⟨-, rfl⟩ := Transition.of_guard taken
    exact .inl (keeps rfl)
  | bwrite i j =>
    simp only [step, ite_none_right_eq_some] at taken
    obtain ⟨out, wrote, rfl⟩ := map_eq_some_iff.mp taken.2
    obtain ⟨-, -, -, rfl⟩ := bwrite_eq wrote
    exact .inl (keeps rfl)
  | brelse i j =>
    simp only [step, ite_none_left_eq_some] at taken
    obtain ⟨c, gave, rfl⟩ := map_eq_some_iff.mp taken.2
    obtain ⟨-, -, rfl⟩ := releasesleep_eq gave
    exact .inl (keeps rfl)
  | drop i =>
    obtain ⟨c, dropped, rfl⟩ := map_eq_some_iff.mp taken
    obtain ⟨j, -, rfl⟩ := drop_eq dropped
    exact .inl (keeps rfl)

omit [DecidableEq ι] in
theorem Inv.data_of_free (inv : Inv original s) (dev : (s.cache.buf k).addr.1 ≠ 0) (free : (s.cache.buf k).refcnt = 0)
    (clean : (s.cache.buf k).dirty = false) : (s.cache.buf k).data = s.disk (s.cache.buf k).addr := by
  have valid : (s.cache.buf k).valid = true := (inv.used k dev).resolve_right fun ⟨i, waits⟩ => by
    have busy := inv.coherent.refcnt_pos ⟨inv.asked i k waits, .inr waits⟩
    omega
  have nobody := inv.coherent.nobody_of_free free
  rw [(inv.coherent.ok k).data valid dev]
  refine (inv.coherent.fresh _ dev).resolve_right fun ⟨j, addr, _, keeps⟩ => ?_
  cases inv.coherent.unique j k addr (addr ▸ dev)
  rcases keeps with dirty | changed
  · simp [clean] at dirty
  · simp [inv.coherent.unchanged_of_nobody nobody] at changed

omit [DecidableEq ι] in
theorem Inv.contents_eq (inv : Inv original s) (dev : a.1 ≠ 0) : contents s a = latest original s.history a := by
  unfold contents
  split
  case h_1 k found =>
    have cached := List.find?_some found
    simp only [Bool.and_eq_true, decide_eq_true_eq] at cached
    rw [(inv.coherent.ok k).data cached.1 (cached.2 ▸ dev), cached.2]
  case h_2 nothing =>
    refine ((inv.coherent.fresh a dev).resolve_right fun ⟨k, addr, valid, _⟩ => ?_).symm
    have absent := List.find?_eq_none.mp nothing k (List.mem_finRange k)
    simp [valid, addr] at absent

/-- The cache and the disk are one map: reads return what it holds, it holds what was stored
last, no block of a device is cached twice, and contents the disk lacks are never recycled. -/
theorem cache_refines_map {ls : List (Label ι β)} (settled : Settled s) (reached : run step s ls = some t) :
    Faithful (contents s) t.history ∧ (∀ a, a.1 ≠ 0 → contents t a = latest (contents s) t.history a) ∧
    (∀ j k, (t.cache.buf j).addr = (t.cache.buf k).addr → (t.cache.buf j).addr.1 ≠ 0 → j = k) ∧
    ∀ l u k, step t l = some u → (t.cache.buf k).owner = none → (t.cache.buf k).addr.1 ≠ 0 →
      (t.cache.buf k).data ≠ t.disk (t.cache.buf k).addr → (u.cache.buf k).addr = (t.cache.buf k).addr := by
  have inv : Inv (contents s) t :=
    run_invariant step (Inv (contents s)) (fun _ _ _ inv taken => step_inv inv taken) (.settled settled) reached
  refine ⟨inv.faithful, fun a dev => inv.contents_eq dev, inv.coherent.unique, fun l u k taken _ dev differs => ?_⟩
  exact (addr_of_step taken k).resolve_right fun ⟨free, clean⟩ => differs (inv.data_of_free dev free clean)

def loaded : State Bool Nat := ⟨Cache.zero, fun _ => 7, fun _ => (0, 0), []⟩

def readBack : List (Label Bool Nat) :=
  [.bget true (1, 5) 3, .bread true, .modify true 3 9, .logWrite true 3, .bget false (1, 5) 3, .brelse true 3,
    .bread false, .drop true]

theorem cache_refines_map_readBack : ∃ t, run step loaded readBack = some t ∧
    t.history = [.read (1, 5) 9, .stored (1, 5) 9, .read (1, 5) 7] ∧ Faithful (contents loaded) t.history := by
  have ends : (run step loaded readBack).map State.history =
      some [.read (1, 5) 9, .stored (1, 5) 9, .read (1, 5) 7] := by decide +kernel
  obtain ⟨t, reached, history⟩ := map_eq_some_iff.mp ends
  have settled : Settled loaded :=
    ⟨fun _ => rfl, fun _ => rfl, fun _ => rfl, fun _ => rfl, fun _ _ _ dev => (dev rfl).elim, fun _ _ => ⟨rfl, rfl⟩,
      fun _ valid => (nomatch valid), fun _ valid => (nomatch valid), rfl⟩
  exact ⟨t, reached, history, (cache_refines_map settled reached).1⟩

end Xv6.Bio
