import Xv6.Log.Atomicity

/-! When `bget` finds no buffer. Buffers are taken by processes, and by the blocks that the log has
recorded and not yet installed. -/

namespace Xv6.Log.Machine
open Lib Lib.Transition Option Finset
open Function (update update_of_ne update_self)

variable {ι β : Type} {k : Fin NBUF} {disk : Addr → β}

section Cache
variable {c c' : Cache ι β} {a : Addr}

def NoBuffers (c : Cache ι β) (a : Addr) : Prop :=
  (∀ k, (c.buf k).addr ≠ a) ∧ ∀ k, (c.buf k).refcnt ≠ 0 ∨ (c.buf k).dirty = true

instance (c : Cache ι β) (a : Addr) : Decidable (NoBuffers c a) := inferInstanceAs (Decidable (_ ∧ _))

/-- How many buffers processes hold, or are about to have or to give back. -/
def inHand [Fintype ι] (c : Cache ι β) : Nat :=
  (Finset.univ.filter fun i => c.call i ≠ .idle).card + (Finset.univ.filter fun k => (c.buf k).owner.isSome).card

def Calms (c c' : Cache ι β) : Prop :=
  ∀ k, (c'.buf k).dirty = true → (c.buf k).dirty = true ∧ (c'.buf k).addr = (c.buf k).addr

theorem Calms.refl (c : Cache ι β) : Calms c c := fun _ dirty => ⟨dirty, rfl⟩

theorem Calms.set {b : Buf ι β} (here : b.dirty = true → (c.buf k).dirty = true ∧ b.addr = (c.buf k).addr) :
    Calms c (c.set k b) := by
  intro l dirty
  by_cases same : l = k
  · subst same
    rw [Cache.set_buf_self] at dirty ⊢
    exact here dirty
  · rw [Cache.set_buf_of_ne same] at dirty ⊢
    exact ⟨dirty, rfl⟩

theorem iderw_clean (disk : Addr → β) (b : Buf ι β) : (iderw disk b).2.dirty = false := by
  unfold iderw
  split
  · rfl
  next clean => exact Bool.eq_false_iff.mpr clean

variable [DecidableEq ι] {i : ι}

theorem calms_bget (taken : c.bget i a k = some c') : Calms c c' := by
  obtain ⟨-, ⟨-, rfl⟩ | ⟨-, -, -, rfl⟩⟩ := Cache.bget_cases taken
  · exact Calms.set fun dirty => ⟨dirty, rfl⟩
  · exact Calms.set fun dirty => nomatch dirty

variable {out : (Addr → β) × Cache ι β}

theorem calms_acquiresleep (taken : c.acquiresleep disk i = some out) :
    Calms c out.2 := by
  obtain ⟨k, -, -, ⟨-, rfl⟩ | ⟨-, -, rfl⟩⟩ := Cache.acquiresleep_cases taken
  · exact Calms.set fun dirty => ⟨dirty, rfl⟩
  · refine Calms.set fun dirty => ?_
    rw [iderw_clean] at dirty
    cases dirty

theorem calms_releasesleep (taken : c.releasesleep i k = some c') : Calms c c' := by
  obtain ⟨-, -, rfl⟩ := Cache.releasesleep_eq taken
  exact Calms.set fun dirty => ⟨dirty, rfl⟩

theorem calms_drop (taken : c.drop i = some c') : Calms c c' := by
  obtain ⟨k, -, rfl⟩ := Cache.drop_eq taken
  exact Calms.set fun dirty => ⟨dirty, rfl⟩

theorem calms_bwrite {data : β} (taken : c.bwrite disk i k data = some out) :
    Calms c out.2 ∧ (out.2.buf k).dirty = false := by
  obtain ⟨-, -, -, rfl⟩ := Cache.bwrite_eq taken
  exact ⟨Calms.set fun dirty => (nomatch dirty), by rw [Cache.set_buf_self]⟩

end Cache

section Marked
variable {s u : State ι} {i : ι}

/-- How many blocks `install_trans` has written home. -/
def Pc.done : Pc → Option Nat
  | .loop .install_trans tail | .second .install_trans tail _ | .copy .install_trans tail _ _ => some tail
  | .release .install_trans tail _ _ | .releaseLast .install_trans tail _ => some (tail + 1)
  | _ => none

/-- The first `count` blocks of the log are not pinned. -/
def Unpinned (c : Cache ι Block) (log : List Nat) (count : Nat) : Prop :=
  ∀ n < count, ∀ b, log[n]? = some b → ∀ k, (c.buf k).addr = root b → (c.buf k).dirty = false

structure Marked (s : State ι) : Prop where
  logged : ∀ k, (s.cache.buf k).dirty = true → ∃ b ∈ s.log.block, (s.cache.buf k).addr = root b
  installed : ∀ i count, (s.pc i).done = some count → Unpinned s.cache s.log.block count
  down : s.phase ≠ .on → ∀ k, (s.cache.buf k).dirty = false

theorem Unpinned.calm {c c' : Cache ι Block} {log : List Nat} {count : Nat} (unpinned : Unpinned c log count) (calms : Calms c c') :
    Unpinned c' log count := by
  intro n bound b here k place
  by_contra dirty
  obtain ⟨before, same⟩ := calms k (Bool.eq_true_of_not_eq_false dirty)
  exact absurd (unpinned n bound b here k (same ▸ place)) (by rw [before]; decide)

theorem Marked.calm (marked : Marked s) (calms : Calms s.cache u.cache) (block : u.log.block = s.log.block)
    (phase : u.phase ≠ .on → s.phase ≠ .on)
    (pcs : ∀ j count, (u.pc j).done = some count → (s.pc j).done = some count ∨ Unpinned u.cache s.log.block count) : Marked u where
  logged l dirty := by
    obtain ⟨before, same⟩ := calms l dirty
    rw [block, same]
    exact marked.logged l before
  installed j count done := by
    rw [block]
    obtain old | new := pcs j count done
    · exact (marked.installed j count old).calm calms
    · exact new
  down off l := by
    by_contra dirty
    obtain ⟨before, -⟩ := calms l (Bool.eq_true_of_not_eq_false dirty)
    exact absurd (marked.down (phase off) l) (by rw [before]; decide)

variable [DecidableEq ι]

variable {pc : Pc}

theorem done_goto {j : ι} {count : Nat} {P : Prop} (here : pc.done = some count → (s.pc i).done = some count ∨ P)
    (done : (update s.pc i pc j).done = some count) : (s.pc j).done = some count ∨ P := by
  by_cases same : j = i
  · subst same
    rw [update_self] at done
    exact here done
  · rw [update_of_ne same] at done
    exact .inl done

theorem Marked.bread {b : Nat} (marked : Marked s) (taken : Machine.bread s i b k pc = some u)
    (here : ∀ count, pc.done = some count → (s.pc i).done = some count) : Marked u := by
  obtain ⟨cache, got, rfl⟩ := bread_eq taken
  exact marked.calm (calms_bget got) rfl id fun j count done => done_goto (fun there => .inl (here count there)) done

theorem Marked.brelse (marked : Marked s) (taken : Machine.brelse s i k pc = some u)
    (here : ∀ count, pc.done = some count → (s.pc i).done = some count ∨ count = 0) : Marked u := by
  obtain ⟨cache, got, rfl⟩ := brelse_eq taken
  refine marked.calm (calms_releasesleep got) rfl id fun j count done => done_goto (fun there => ?_) done
  refine (here count there).imp_right fun zero => ?_
  rw [zero]
  exact fun n bound => absurd bound (Nat.not_lt_zero n)

theorem Marked.bwrite {data : Block} (marked : Marked s) (taken : Machine.bwrite s i k data pc = some u)
    (here : ∀ count, pc.done = some count → (s.pc i).done = some count ∨ Unpinned u.cache s.log.block count) : Marked u := by
  obtain ⟨out, got, rfl⟩ := bwrite_eq taken
  exact marked.calm (calms_bwrite got).1 rfl id fun j count done => done_goto (here count) done

theorem Marked.goto (marked : Marked s) (cache : u.cache = s.cache) (block : u.log.block = s.log.block)
    (phase : u.phase ≠ .on → s.phase ≠ .on) (pcs : u.pc = update s.pc i pc)
    (here : ∀ count, pc.done = some count → (s.pc i).done = some count) : Marked u := by
  refine marked.calm (by rw [cache]; exact .refl _) block phase fun j count done => ?_
  rw [pcs] at done
  exact done_goto (fun there => .inl (here count there)) done

variable [Fintype ι] {start size : Nat}

theorem Inv.unpins {data : Block} {tail b : Nat} (inv : Inv start size s) (place : s.log.block[tail]? = some b)
    (has : s.cache.Has i k (root b)) (taken : Machine.bwrite s i k data pc = some u) (before : Unpinned s.cache s.log.block tail) :
    Unpinned u.cache s.log.block (tail + 1) := by
  obtain ⟨out, got, rfl⟩ := bwrite_eq taken
  obtain ⟨calms, clean⟩ := calms_bwrite got
  intro n bound c here l addr
  obtain early | rfl := Nat.lt_succ_iff_lt_or_eq.mp bound
  · exact before.calm calms n early c here l addr
  · cases place.symm.trans here
    by_contra dirty
    have dirty := Bool.eq_true_of_not_eq_false dirty
    obtain ⟨-, same⟩ := calms l dirty
    have moved : (s.cache.buf l).addr = root b := same.symm.trans addr
    have own : l = k := inv.coherent.unique l k (moved.trans has.1.symm) (by rw [moved]; exact Nat.one_ne_zero)
    rw [own] at dirty
    exact absurd (clean.symm.trans dirty) (by decide)

theorem Marked.go (marked : Marked s) (inv : Inv start size s) (here : s.pc i = pc)
    (taken : Machine.go s i k pc = some u) : Marked u := by
  have stage := inv.stage i
  rw [here] at stage
  cases pc with
  | user => cases taken
  | op => cases taken
  | «begin» =>
    simp only [Machine.go] at taken
    split at taken <;> cases taken
    exact marked.goto rfl rfl id rfl fun _ none => by cases none
  | logging l =>
    cases taken
    obtain ⟨a, has, dev, -⟩ := stage
    have on := (inv.ctl.on_of_inside (i := i) (by rw [here]; rfl)).1
    have outside : ∀ j count, (update s.pc i .op j).done = some count → False := by
      intro j count done
      by_cases same : j = i
      · rw [same, update_self] at done
        cases done
      · rw [update_of_ne same] at done
        have busy : (s.pc j).busy = true := by
          generalize s.pc j = other at done
          cases other <;> first | rfl | cases done
        exact absurd (inv.ctl.outside_of_busy busy i) (by rw [here]; exact Bool.false_ne_true.symm)
    refine ⟨fun m dirty => ?_, fun j count done => (outside j count done).elim, fun off => absurd on off⟩
    simp only [goto_cache, goto_log, Cache.pin] at dirty ⊢
    by_cases same : m = l
    · subst same
      rw [Cache.set_buf_self]
      refine ⟨(s.cache.buf m).addr.2, (Log.mem_record _ _ _).mpr (.inl rfl), Prod.ext ?_ rfl⟩
      exact (congrArg Prod.fst has.1).trans dev
    · rw [Cache.set_buf_of_ne same] at dirty ⊢
      obtain ⟨b, member, addr⟩ := marked.logged m dirty
      exact ⟨b, (Log.mem_record _ _ _).mpr (.inr member), addr⟩
  | commit =>
    simp only [Machine.go] at taken
    split at taken <;> cases taken
    · exact marked.goto rfl rfl id rfl fun _ none => by cases none
    · exact marked.goto rfl rfl id rfl fun _ none => by cases none
  | finish =>
    cases taken
    exact marked.goto rfl rfl id rfl fun _ none => by cases none
  | loop which tail =>
    simp only [Machine.go] at taken
    split at taken
    next more =>
      refine marked.bread taken fun count done => ?_
      rw [here]
      cases which
      · cases done
      · exact done
    next finished =>
      cases which with
      | write_log =>
        cases taken
        exact marked.goto rfl rfl id rfl fun _ none => by cases none
      | install_trans =>
        cases taken
        have clean : ∀ l, (s.cache.buf l).dirty = false := by
          intro l
          by_contra dirty
          have dirty := Bool.eq_true_of_not_eq_false dirty
          obtain ⟨b, member, addr⟩ := marked.logged l dirty
          obtain ⟨n, bound, rfl⟩ := List.getElem_of_mem member
          have passed : n < tail := Nat.lt_of_lt_of_le bound (Nat.le_of_not_lt finished)
          have unpinned := marked.installed i tail (by rw [here]; rfl) n passed _ (List.getElem?_eq_getElem bound) l addr
          exact absurd (unpinned.symm.trans dirty) (by decide)
        refine ⟨fun l dirty => absurd ((clean l).symm.trans dirty) (by decide), fun j count done => ?_, fun _ => clean⟩
        exact fun n _ b none => by cases none
  | second which tail log =>
    simp only [Machine.go] at taken
    split at taken
    next =>
      refine marked.bread taken fun count done => ?_
      rw [here]
      cases which
      · cases done
      · exact done
    next => cases taken
  | copy which tail log home =>
    cases which with
    | write_log => exact marked.bwrite taken fun _ none => by cases none
    | install_trans =>
      obtain ⟨-, -, -, -, b, place, has⟩ := stage
      refine marked.bwrite taken fun count done => .inr ?_
      cases done
      exact inv.unpins place has taken (marked.installed i tail (by rw [here]; rfl))
  | release which tail log home =>
    cases which with
    | write_log => exact marked.brelse taken fun _ none => by cases none
    | install_trans => exact marked.brelse taken fun _ done => .inl (by rw [here]; exact done)
  | releaseLast which tail l =>
    refine marked.brelse taken fun _ done => .inl ?_
    rw [here]
    cases which
    · cases done
    · exact done
  | head clear => exact marked.bread taken fun _ none => by cases none
  | writeHead clear l =>
    obtain ⟨v, wrote, rfl⟩ := map_eq_some_iff.mp taken
    have marked := marked.bwrite wrote fun _ none => by cases none
    cases clear
    · exact ⟨marked.logged, marked.installed, marked.down⟩
    · exact marked
  | releaseHead clear l =>
    refine marked.brelse taken fun count done => .inr ?_
    cases clear
    · exact (some.inj done).symm
    · cases done
  | returned =>
    simp only [Machine.go] at taken
    split at taken <;> cases taken
    · exact marked.goto rfl rfl (fun off => absurd rfl off) rfl fun _ none => by cases none
    · exact marked.goto rfl rfl id rfl fun _ none => by cases none
  | readsb l =>
    obtain ⟨v, released, rfl⟩ := map_eq_some_iff.mp taken
    have marked := marked.brelse released fun _ none => by cases none
    exact ⟨marked.logged, marked.installed, marked.down⟩
  | readHead => exact marked.bread taken fun _ none => by cases none
  | gotHead l =>
    obtain ⟨v, released, rfl⟩ := map_eq_some_iff.mp taken
    have booting : s.phase = .booting := inv.ctl.only i .booting (by rw [here]; rfl)
    have marked := marked.brelse released fun _ done => .inr (some.inj done).symm
    obtain ⟨cache, -, rfl⟩ := brelse_eq released
    have clean := marked.down (by simp only [goto_phase, booting]; decide)
    refine ⟨fun m dirty => absurd ((clean m).symm.trans dirty) (by decide), fun j count done => ?_, marked.down⟩
    exact fun n _ b _ m _ => clean m

theorem Marked.preserved {l : Label ι} (marked : Marked s) (inv : Inv start size s) (taken : step s l = some u) : Marked u := by
  cases l with
  | crash =>
    cases taken
    exact ⟨fun _ dirty => (nomatch dirty), fun _ _ none => (nomatch none), fun _ _ => rfl⟩
  | initlog i k =>
    obtain ⟨off, taken⟩ := ite_none_right_eq_some.mp taken
    obtain ⟨v, got, rfl⟩ := map_eq_some_iff.mp taken
    have marked' := marked.bread got fun _ none => nomatch none
    obtain ⟨cache, -, rfl⟩ := bread_eq got
    exact ⟨marked'.logged, marked'.installed, fun _ => marked'.down (by simp only [goto_phase, off]; decide)⟩
  | begin_op i =>
    obtain ⟨-, rfl⟩ := Transition.of_guard taken
    exact marked.goto rfl rfl id rfl fun _ none => nomatch none
  | bread i b k =>
    exact marked.bread (ite_none_right_eq_some.mp taken).2 fun _ done => done
  | modify i k data =>
    obtain ⟨-, rfl⟩ := Transition.of_guard taken
    exact marked.calm (Calms.set fun dirty => ⟨dirty, rfl⟩) rfl id fun _ _ done => .inl done
  | log_write i k =>
    obtain ⟨-, rfl⟩ := Transition.of_guard taken
    exact marked.goto rfl rfl id rfl fun _ none => nomatch none
  | brelse i k =>
    exact marked.brelse (ite_none_right_eq_some.mp taken).2 fun _ done => .inl done
  | end_op i =>
    obtain ⟨-, taken⟩ := ite_none_right_eq_some.mp taken
    split at taken <;> cases taken
    · exact marked.goto rfl rfl id rfl fun _ none => nomatch none
    · exact marked.goto rfl rfl id rfl fun _ none => nomatch none
  | acquiresleep i =>
    obtain ⟨out, got, rfl⟩ := map_eq_some_iff.mp taken
    exact marked.calm (calms_acquiresleep got) rfl id fun _ _ done => .inl done
  | drop i =>
    obtain ⟨cache, got, rfl⟩ := map_eq_some_iff.mp taken
    exact marked.calm (calms_drop got) rfl id fun _ _ done => .inl done
  | go i k =>
    simp only [step, ite_none_right_eq_some] at taken
    exact marked.go inv rfl taken.2

end Marked

section Exhaustion
variable [Fintype ι] {start size : Nat} {fresh s : State ι}

theorem sum_refcnt {c : Cache ι β} {view : Addr → β} (coherent : c.Coherent disk view) :
    ∑ k, (c.buf k).refcnt = inHand c := by
  have calls : ∀ i, ∑ k, (c.call i).refs k = if c.call i ≠ .idle then 1 else 0 := by
    intro i
    cases c.call i with
    | idle => exact sum_eq_zero fun _ _ => rfl
    | waiting k | dropping k => exact (sum_ite_eq Finset.univ k _).trans (if_pos (mem_univ k))
  have owners : ∀ k, (c.buf k).owner.isSome.toNat = if (c.buf k).owner.isSome = true then 1 else 0 := fun k => by
    cases (c.buf k).owner.isSome <;> rfl
  rw [sum_congr rfl fun k _ => coherent.refs k, sum_add_distrib, sum_comm, inHand, card_filter,
    card_filter, sum_congr rfl fun i _ => calls i, sum_congr rfl fun k _ => owners k]

theorem Marked.pinned_le (marked : Marked s) (inv : Inv start size s) :
    (Finset.univ.filter fun k => (s.cache.buf k).dirty = true).card ≤ s.log.n := by
  have maps : ∀ k ∈ Finset.univ.filter fun k => (s.cache.buf k).dirty = true, (s.cache.buf k).addr.2 ∈ s.log.block.toFinset := by
    intro k member
    obtain ⟨b, logged, addr⟩ := marked.logged k (mem_filter.mp member).2
    rw [addr]
    exact List.mem_toFinset.mpr logged
  have injective : ∀ j ∈ Finset.univ.filter fun k => (s.cache.buf k).dirty = true,
      ∀ k ∈ Finset.univ.filter fun k => (s.cache.buf k).dirty = true,
      (s.cache.buf j).addr.2 = (s.cache.buf k).addr.2 → j = k := by
    intro j first k second same
    obtain ⟨b, -, addr⟩ := marked.logged j (mem_filter.mp first).2
    obtain ⟨c, -, addr'⟩ := marked.logged k (mem_filter.mp second).2
    rw [addr, addr'] at same
    refine inv.coherent.unique j k ?_ (by rw [addr]; exact Nat.one_ne_zero)
    rw [addr, addr']
    exact congrArg root same
  exact (card_le_card_of_injOn _ maps injective).trans (List.toFinset_card_le _)

theorem Marked.free_buffer (marked : Marked s) (inv : Inv start size s) (few : inHand s.cache + s.log.n < NBUF) :
    ∃ k, (s.cache.buf k).refcnt = 0 ∧ (s.cache.buf k).dirty = false := by
  by_contra none
  push Not at none
  have taken : (Finset.univ : Finset (Fin NBUF)) ⊆ (Finset.univ.filter fun k => (s.cache.buf k).refcnt ≠ 0) ∪
      Finset.univ.filter fun k => (s.cache.buf k).dirty = true := by
    intro k member
    by_cases free : (s.cache.buf k).refcnt = 0
    · refine mem_union_right _ (mem_filter.mpr ⟨member, ?_⟩)
      exact Bool.eq_true_of_not_eq_false (none k free)
    · exact mem_union_left _ (mem_filter.mpr ⟨member, free⟩)
  have held : (Finset.univ.filter fun k => (s.cache.buf k).refcnt ≠ 0).card ≤ inHand s.cache := by
    rw [← sum_refcnt inv.coherent, card_filter]
    refine sum_le_sum fun k _ => ?_
    split <;> omega
  have pinned := marked.pinned_le inv
  have all := (card_le_card taken).trans (card_union_le _ _)
  rw [card_univ, Fintype.card_fin] at all
  omega

variable [DecidableEq ι] {ls : List (Label ι)}

/-- `bget` finds a buffer as long as the buffers in the hands of processes and the blocks in the log
are fewer than the buffers. -/
theorem buffers_suffice (geo : Geometry start size) (initial : Initial start size fresh) (ran : run step fresh ls = some s)
    (few : inHand s.cache + s.log.n < NBUF) (a : Addr) : ¬ NoBuffers s.cache a := by
  have start' : Marked fresh := by
    refine ⟨fun k dirty => ?_, fun i count done => ?_, fun _ k => ?_⟩
    · rw [initial.cache] at dirty
      cases dirty
    · rw [initial.pc i] at done
      cases done
    · rw [initial.cache]
      rfl
  have both : Inv start size s ∧ Marked s := by
    refine run_invariant step (fun v => Inv start size v ∧ Marked v) (fun v l w here taken => ?_)
      ⟨initial.inv geo, start'⟩ ran
    exact ⟨here.1.preserved geo taken, here.2.preserved here.1 taken⟩
  rintro ⟨-, taken⟩
  obtain ⟨k, free, clean⟩ := both.2.free_buffer both.1 few
  obtain held | pinned := taken k
  · exact held free
  · exact absurd (clean.symm.trans pinned) (by decide)

def bootUp : List (Label (Fin NPROC)) :=
  [.initlog 0 0, .acquiresleep 0, .go 0 0, .drop 0, .go 0 1, .acquiresleep 0, .go 0 1, .drop 0,
    .go 0 1, .go 0 1, .acquiresleep 0, .go 0 1, .go 0 1, .drop 0, .go 0 0]

def readers (n : Nat) : List (Label (Fin NPROC)) :=
  (List.range n).flatMap fun i =>
    [.bread (Fin.ofNat NPROC i) (60 + i) (Fin.ofNat NBUF i), .acquiresleep (Fin.ofNat NPROC i)]

theorem thirty_readers_exhaust : Initial 2 LOGSIZE (poweredOn (Fin NPROC)) ∧
    ∃ s, run step (poweredOn (Fin NPROC)) (bootUp ++ readers NBUF) = some s ∧ s.cache.call 30 = .idle ∧ s.pc 30 = .user ∧
      NoBuffers s.cache (root 90) := by
  have outcome : (run step (poweredOn (Fin NPROC)) (bootUp ++ readers NBUF)).any
      (fun s => decide (s.cache.call 30 = .idle ∧ s.pc 30 = .user ∧ NoBuffers s.cache (root 90))) = true := by
    decide +kernel
  obtain ⟨s, reached, panics⟩ := (any_eq_true _ _).mp outcome
  exact ⟨(poweredOn_initial _), s, reached, of_decide_eq_true panics⟩

theorem buffers_suffice_fewReaders : ∃ s, run step (poweredOn (Fin NPROC)) (bootUp ++ readers 29) = some s ∧ ¬ NoBuffers s.cache (root 90) := by
  have outcome : (run step (poweredOn (Fin NPROC)) (bootUp ++ readers 29)).any
      (fun s => decide (inHand s.cache + s.log.n < NBUF)) = true := by
    decide +kernel
  obtain ⟨s, reached, few⟩ := (any_eq_true _ _).mp outcome
  exact ⟨s, reached, buffers_suffice ⟨by decide, by decide, by decide⟩ (poweredOn_initial _) reached (of_decide_eq_true few) (root 90)⟩

end Exhaustion

end Xv6.Log.Machine
