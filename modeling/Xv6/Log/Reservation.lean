import Xv6.Log.Admission

/-! `begin_op` reserves `MAXOPBLOCKS` of `LOGSIZE` blocks for every operation. The log has `LOGSIZE`
blocks with its header, and `log_write` leaves one more unused. -/

namespace Xv6.Log.Admission
open Lib Lib.Transition Proc Function Finset
open List.Subset (refl)
open Transition (of_guard)

variable {ι : Type}

/-- After `initlog`; `mkfs` sets `nlog` to `LOGSIZE`. -/
structure Initial (s : State ι) : Prop extends Started s where
  size : s.log.size = LOGSIZE

section Reservation

/-- The blocks that the operation in progress has passed to `log_write`. -/
def share (s : State ι) (i : ι) : Finset Nat := if (s.procs i).pc.inside then s.passed i else ∅

/-- How many more distinct blocks the operation in progress may pass. -/
def spare (s : State ι) (i : ι) : Nat :=
  if (s.procs i).pc.inside then MAXOPBLOCKS - (s.passed i).card else 0

variable [Fintype ι]

/-- The blocks that are in the log or about to be recorded there. -/
def used (s : State ι) : Finset Nat := s.log.block.toFinset ∪ Finset.univ.biUnion (share s)

/-- Every operation keeps to `MAXOPBLOCKS` distinct blocks. -/
def Modest (s : State ι) : Label ι → Prop
  | .log_write i b => (insert b (s.passed i)).card ≤ MAXOPBLOCKS
  | _ => True

instance : ∀ (s : State ι) (l : Label ι), Decidable (Modest s l)
  | s, .log_write i b => inferInstanceAs (Decidable ((insert b (s.passed i)).card ≤ MAXOPBLOCKS))
  | _, .schedule _ | _, .begin_op _ | _, .admission _ | _, .record _ | _, .end_op _ | _, .commit _
  | _, .finish _ => inferInstanceAs (Decidable True)

/-- `begin_op` admits nobody into the last two blocks, for the header and the one that `log_write`
leaves unused. -/
def Roomy (s : State ι) : Label ι → Prop
  | .admission _ =>
    s.log.beginWaits = true ∨ s.log.n + (s.log.outstanding + 1) * MAXOPBLOCKS ≤ LOGSIZE - 2
  | _ => True

instance : ∀ (s : State ι) (l : Label ι), Decidable (Roomy s l)
  | s, .admission _ => inferInstanceAs (Decidable (s.log.beginWaits = true ∨
      s.log.n + (s.log.outstanding + 1) * MAXOPBLOCKS ≤ LOGSIZE - 2))
  | _, .schedule _ | _, .begin_op _ | _, .log_write _ _ | _, .record _ | _, .end_op _ | _, .commit _
  | _, .finish _ => inferInstanceAs (Decidable True)

structure Inv (s : State ι) : Prop extends Steady s where
  size : s.log.size = LOGSIZE
  recorded : ∀ i, (s.procs i).pc.inside = true → ∀ b ∈ s.passed i, b ∈ s.log.block ∨ (s.procs i).pc = .logging b
  pending : ∀ i b, (s.procs i).pc = .logging b → b ∈ s.passed i
  modest : ∀ i, (s.procs i).pc.inside = true → (s.passed i).card ≤ MAXOPBLOCKS
  budget : (used s).card + ∑ i, spare s i ≤ LOGSIZE - 2
  calm : s.panic = none

section Facts
variable {s : State ι} {i : ι}

theorem mem_used (s : State ι) (b : Nat) : b ∈ used s ↔ b ∈ s.log.block ∨ ∃ i, b ∈ share s i := by
  simp [used]

theorem used_of_outside (outside : ∀ i, (s.procs i).pc.inside = false) : used s = s.log.block.toFinset := by
  ext b
  simp [mem_used, share, outside]

theorem Inv.n_le (inv : Inv s) : s.log.n ≤ LOGSIZE - 2 := by
  have logged : s.log.block.toFinset ⊆ used s := subset_union_left
  have count := card_le_card logged
  rw [List.toFinset_card_of_nodup inv.distinct] at count
  exact count.trans ((Nat.le_add_right _ _).trans inv.budget)

theorem Inv.not_tooBig (inv : Inv s) : s.log.tooBig = false := by
  have fits := inv.n_le
  have size := inv.size
  simp only [LOGSIZE, MAXOPBLOCKS] at fits size
  refine Bool.or_eq_false_iff.mpr ⟨decide_eq_false ?_, decide_eq_false ?_⟩
  · simp only [LOGSIZE, MAXOPBLOCKS]
    omega
  · omega

theorem Inv.used_add_spare_le (inv : Inv s) :
    (used s).card + ∑ j, spare s j ≤ s.log.n + s.log.outstanding * MAXOPBLOCKS := by
  have split : (used s).card ≤ s.log.n + ∑ j, (share s j).card := by
    refine (card_union_le _ _).trans (Nat.add_le_add ?_ card_biUnion_le)
    exact List.toFinset_card_le _
  have each : ∀ j, (share s j).card + spare s j = (s.procs j).pc.inside.toNat * MAXOPBLOCKS := by
    intro j
    unfold share spare
    cases here : (s.procs j).pc.inside with
    | false => simp
    | true =>
      have modest := inv.modest j here
      simp only [if_true, Bool.toNat_true]
      omega
  have total : ∑ j, (share s j).card + ∑ j, spare s j = s.log.outstanding * MAXOPBLOCKS := by
    rw [← sum_add_distrib, inv.counted, sum_mul]
    exact sum_congr rfl fun j _ => each j
  omega

end Facts

section Move
variable {s t : State ι} {i : ι}

omit [Fintype ι] in
theorem share_of_ne (others : ∀ j, j ≠ i → (t.procs j).pc = (s.procs j).pc)
    (passed : ∀ j, j ≠ i → t.passed j = s.passed j) {j : ι} (apart : j ≠ i) : share t j = share s j := by
  rw [share, share, others j apart, passed j apart]

variable [DecidableEq ι]

theorem spare_sum (others : ∀ j, j ≠ i → (t.procs j).pc = (s.procs j).pc)
    (passed : ∀ j, j ≠ i → t.passed j = s.passed j) :
    (∑ j, spare t j) + spare s i = (∑ j, spare s j) + spare t i :=
  sum_change i fun j apart => by rw [spare, spare, others j apart, passed j apart]

omit [DecidableEq ι] in
theorem Inv.move (inv : Inv s) (steady : Steady t) (i : ι) (others : ∀ j, j ≠ i → (t.procs j).pc = (s.procs j).pc)
    (passed : ∀ j, j ≠ i → t.passed j = s.passed j) (size : t.log.size = s.log.size)
    (grown : ∀ j, j ≠ i → (s.procs j).pc.inside = true → s.log.block ⊆ t.log.block)
    (recorded : (t.procs i).pc.inside = true → ∀ b ∈ t.passed i, b ∈ t.log.block ∨ (t.procs i).pc = .logging b)
    (pending : ∀ b, (t.procs i).pc = .logging b → b ∈ t.passed i)
    (modest : (t.procs i).pc.inside = true → (t.passed i).card ≤ MAXOPBLOCKS)
    (budget : (used t).card + ∑ j, spare t j ≤ LOGSIZE - 2) (panic : t.panic = none) : Inv t where
  toSteady := steady
  size := size.trans inv.size
  recorded j here b member := by
    rcases eq_or_ne j i with rfl | apart
    · exact recorded here b member
    · rw [others j apart] at here ⊢
      rw [passed j apart] at member
      exact (inv.recorded j here b member).imp_left fun old => grown j apart here old
  pending j b here := by
    rcases eq_or_ne j i with rfl | apart
    · exact pending b here
    · rw [others j apart] at here
      rw [passed j apart]
      exact inv.pending j b here
  modest j here := by
    rcases eq_or_ne j i with rfl | apart
    · exact modest here
    · rw [others j apart] at here
      rw [passed j apart]
      exact inv.modest j here
  budget := budget
  calm := panic

omit [DecidableEq ι] in
theorem Inv.congr (inv : Inv s) (steady : Steady t) (procs : ∀ j, (t.procs j).pc = (s.procs j).pc) (log : t.log = s.log)
    (passed : t.passed = s.passed) (panic : t.panic = s.panic) : Inv t := by
  have shares : share t = share s := by
    funext j
    rw [share, share, procs, passed]
  have spares : spare t = spare s := by
    funext j
    rw [spare, spare, procs, passed]
  have blocks : used t = used s := by rw [used, used, shares, log]
  refine ⟨steady, ?_, ?_, ?_, ?_, ?_, ?_⟩ <;> simp only [procs, log, passed, panic, spares, blocks]
  exacts [inv.size, inv.recorded, inv.pending, inv.modest, inv.budget, inv.calm]

theorem Inv.idle (inv : Inv s) (steady : Steady t) (i : ι) (others : ∀ j, j ≠ i → (t.procs j).pc = (s.procs j).pc)
    (passed : t.passed = s.passed) (size : t.log.size = s.log.size) (block : t.log.block = s.log.block)
    (before : (s.procs i).pc.inside = false) (after : (t.procs i).pc.inside = false) (panic : t.panic = none) : Inv t := by
  have same : ∀ j, j ≠ i → t.passed j = s.passed j := fun j _ => congrFun passed j
  have shares : share t = share s := by
    funext j
    rcases eq_or_ne j i with rfl | apart
    · simp [share, before, after]
    · exact share_of_ne others same apart
  have spares := spare_sum others same
  have budget : (used t).card + ∑ j, spare t j ≤ LOGSIZE - 2 := by
    have old := inv.budget
    have none : spare s i = 0 ∧ spare t i = 0 := by simp [spare, before, after]
    have same : used t = used s := by rw [used, used, shares, block]
    rw [same]
    omega
  refine inv.move steady i others same size (fun _ _ _ => block ▸ refl _) ?_ ?_ ?_ budget panic
  · intro here; rw [after] at here; cases here
  · intro b here; rw [here] at after; cases after
  · intro here; rw [after] at here; cases here

theorem Inv.enter (inv : Inv s) (steady : Steady t) (here : (s.procs i).pc = .begin)
    (roomy : s.log.n + (s.log.outstanding + 1) * MAXOPBLOCKS ≤ LOGSIZE - 2) (log : t.log = s.log.enter)
    (procs : t.procs = jump s.procs i .inOp) (passed : t.passed = update s.passed i ∅)
    (panic : t.panic = none) : Inv t := by
  have others : ∀ j, j ≠ i → (t.procs j).pc = (s.procs j).pc := fun j apart => by
    rw [procs, jump_of_ne apart]
  have same : ∀ j, j ≠ i → t.passed j = s.passed j := fun j apart => by
    rw [passed, update_of_ne apart]
  have now : (t.procs i).pc = .inOp := by rw [procs, jump_self_pc]
  have fresh : t.passed i = ∅ := by rw [passed, update_self]
  have budget : (used t).card + ∑ j, spare t j ≤ LOGSIZE - 2 := by
    have shares : share t = share s := by
      funext j
      rcases eq_or_ne j i with rfl | apart
      · simp [share, here, now, fresh, Pc.inside]
      · exact share_of_ne others same apart
    have blocks : used t = used s := by rw [used, used, shares, log]; rfl
    have spares := spare_sum others same
    have mine : spare s i = 0 ∧ spare t i = MAXOPBLOCKS := by simp [spare, here, now, fresh, Pc.inside]
    have covered := inv.used_add_spare_le
    rw [blocks]
    rw [Nat.add_mul] at roomy
    omega
  exact inv.move steady i others same (by rw [log]; rfl) (fun _ _ _ => by rw [log]; exact refl _)
    (by simp [fresh]) (by simp [now]) (by simp [fresh]) budget panic

theorem Inv.pass {b : Nat} (inv : Inv s) (steady : Steady t) (here : (s.procs i).pc = .inOp)
    (modest : (insert b (s.passed i)).card ≤ MAXOPBLOCKS) (log : t.log = s.log)
    (procs : t.procs = jump s.procs i (.logging b))
    (passed : t.passed = update s.passed i (insert b (s.passed i))) (panic : t.panic = none) : Inv t := by
  have others : ∀ j, j ≠ i → (t.procs j).pc = (s.procs j).pc := fun j apart => by
    rw [procs, jump_of_ne apart]
  have same : ∀ j, j ≠ i → t.passed j = s.passed j := fun j apart => by
    rw [passed, update_of_ne apart]
  have now : (t.procs i).pc = .logging b := by rw [procs, jump_self_pc]
  have more : t.passed i = insert b (s.passed i) := by rw [passed, update_self]
  have budget : (used t).card + ∑ j, spare t j ≤ LOGSIZE - 2 := by
    have spares := spare_sum others same
    have mine : spare s i = MAXOPBLOCKS - (s.passed i).card ∧
        spare t i = MAXOPBLOCKS - (insert b (s.passed i)).card := by simp [spare, here, now, more, Pc.inside]
    have old := inv.budget
    by_cases known : b ∈ s.passed i
    · have shares : share t = share s := by
        funext j
        rcases eq_or_ne j i with rfl | apart
        · simp [share, here, now, more, Pc.inside, known]
        · exact share_of_ne others same apart
      have blocks : used t = used s := by rw [used, used, shares, log]
      rw [insert_eq_of_mem known] at mine
      rw [blocks]
      omega
    · have blocks : used t ⊆ insert b (used s) := by
        intro c member
        rw [mem_used, log] at member
        rw [mem_insert, mem_used]
        rcases member with logged | ⟨j, shared⟩
        · exact .inr (.inl logged)
        · rcases eq_or_ne j i with rfl | apart
          · rw [share, now, more] at shared
            rcases mem_insert.mp shared with rfl | before
            · exact .inl rfl
            · exact .inr (.inr ⟨j, by rw [share, here]; exact before⟩)
          · exact .inr (.inr ⟨j, share_of_ne others same apart ▸ shared⟩)
      have count := (card_le_card blocks).trans (card_insert_le b (used s))
      rw [card_insert_of_notMem known] at mine modest
      omega
  refine inv.move steady i others same (by rw [log]) (fun _ _ _ => by rw [log]; exact refl _)
    (fun _ c member => ?_) (fun c pending => ?_) (fun _ => by rw [more]; exact modest) budget panic
  · rw [more] at member
    rcases mem_insert.mp member with rfl | before
    · exact .inr now
    · have old := inv.recorded i (by rw [here]; rfl) c before
      rw [here] at old
      rcases old with logged | other
      · exact .inl (log ▸ logged)
      · cases other
  · rw [now] at pending
    cases pending
    rw [more]
    exact mem_insert_self b _

theorem Inv.record {b : Nat} (inv : Inv s) (steady : Steady t) (here : (s.procs i).pc = .logging b) (log : t.log = s.log.record b)
    (procs : t.procs = jump s.procs i .inOp) (passed : t.passed = s.passed) (panic : t.panic = none) : Inv t := by
  have others : ∀ j, j ≠ i → (t.procs j).pc = (s.procs j).pc := fun j apart => by
    rw [procs, jump_of_ne apart]
  have same : ∀ j, j ≠ i → t.passed j = s.passed j := fun j _ => congrFun passed j
  have now : (t.procs i).pc = .inOp := by rw [procs, jump_self_pc]
  have grown : s.log.block ⊆ t.log.block := fun c member => by
    rw [log, Log.mem_record]
    exact .inr member
  have shares : share t = share s := by
    funext j
    rcases eq_or_ne j i with rfl | apart
    · simp [share, here, now, passed, Pc.inside]
    · exact share_of_ne others same apart
  have blocks : used t ⊆ used s := by
    intro c member
    rw [mem_used, log, Log.mem_record, shares] at member
    rw [mem_used]
    rcases member with (rfl | logged) | shared
    · exact .inr ⟨i, by rw [share, here]; exact inv.pending i c here⟩
    · exact .inl logged
    · exact .inr shared
  have budget : (used t).card + ∑ j, spare t j ≤ LOGSIZE - 2 := by
    have spares := spare_sum others same
    have mine : spare t i = spare s i := by simp [spare, here, now, passed, Pc.inside]
    have count := card_le_card blocks
    have old := inv.budget
    omega
  refine inv.move steady i others same (by rw [log, Log.record_size]) (fun _ _ _ => grown)
    (fun _ c member => ?_) (fun c pending => ?_) (fun _ => ?_) budget panic
  · have old := inv.recorded i (by rw [here]; rfl) c (passed ▸ member)
    rw [log, Log.mem_record]
    rcases old with logged | pending
    · exact .inl (.inr logged)
    · rw [here] at pending
      cases pending
      exact .inl (.inl rfl)
  · rw [now] at pending
    cases pending
  · rw [passed]
    exact inv.modest i (by rw [here]; rfl)

theorem Inv.leave (inv : Inv s) (steady : Steady t) (size : t.log.size = s.log.size)
    (block : t.log.block = s.log.block) (others : ∀ j, j ≠ i → (t.procs j).pc = (s.procs j).pc)
    (now : (t.procs i).pc.inside = false) (passed : t.passed = s.passed)
    (panic : t.panic = none) : Inv t := by
  have same : ∀ j, j ≠ i → t.passed j = s.passed j := fun j _ => congrFun passed j
  have blocks : used t ⊆ used s := by
    intro c member
    rw [mem_used, block] at member
    rw [mem_used]
    refine member.imp_right fun ⟨j, shared⟩ => ?_
    rcases eq_or_ne j i with rfl | apart
    · rw [share, now] at shared
      cases notMem_empty c shared
    · exact ⟨j, share_of_ne others same apart ▸ shared⟩
  have budget : (used t).card + ∑ j, spare t j ≤ LOGSIZE - 2 := by
    have spares := spare_sum others same
    have mine : spare t i = 0 := by simp [spare, now]
    have count := card_le_card blocks
    have old := inv.budget
    omega
  refine inv.move steady i others same size (fun _ _ _ => block ▸ refl _) ?_ ?_ ?_ budget panic
  · intro there; rw [now] at there; cases there
  · intro b there; rw [there] at now; cases now
  · intro there; rw [now] at there; cases there

theorem Inv.commit (inv : Inv s) (steady : Steady t) (alone : ∀ j, (s.procs j).pc.inside = false) (log : t.log = { s.log with block := [] })
    (procs : t.procs = jump s.procs i .finish) (passed : t.passed = s.passed) (panic : t.panic = none) : Inv t := by
  have others : ∀ j, j ≠ i → (t.procs j).pc = (s.procs j).pc := fun j apart => by
    rw [procs, jump_of_ne apart]
  have same : ∀ j, j ≠ i → t.passed j = s.passed j := fun j _ => congrFun passed j
  have now : (t.procs i).pc = .finish := by rw [procs, jump_self_pc]
  have after : ∀ j, (t.procs j).pc.inside = false := by
    intro j
    rcases eq_or_ne j i with rfl | apart
    · rw [now]; rfl
    · rw [others j apart]; exact alone j
  have budget : (used t).card + ∑ j, spare t j ≤ LOGSIZE - 2 := by
    rw [used_of_outside after]
    simp [spare, after, log]
  refine inv.move steady i others same (by rw [log]) (fun j _ inside => by rw [alone j] at inside; cases inside) ?_ ?_ ?_ budget panic
  · intro there; rw [after] at there; cases there
  · intro b there; rw [now] at there; cases there
  · intro there; rw [after] at there; cases there

theorem Inv.preserved {l : Label ι} (inv : Inv s) (modest : Modest s l) (roomy : Roomy s l)
    (taken : step s l = some t) : Inv t := by
  have steady := inv.toSteady.preserved taken
  cases l with
  | schedule i =>
    obtain ⟨-, rfl⟩ := of_guard taken
    exact inv.congr steady (fun j => by simp only [schedule_pc]) rfl rfl rfl
  | begin_op i =>
    obtain ⟨⟨calm, -, here⟩, rfl⟩ := of_guard taken
    exact inv.idle steady i (fun j apart => by simp only [jump_of_ne apart]) rfl rfl rfl (by rw [here]; rfl)
      (by simp only [jump_self_pc]; rfl) calm
  | admission i =>
    obtain ⟨⟨calm, -, here⟩, taken⟩ := Option.ite_none_right_eq_some.mp taken
    split at taken
    next waits =>
      cases taken
      exact inv.idle steady i (fun j apart => by simp only [sleep_of_ne apart]) rfl rfl rfl (by rw [here]; rfl)
        (by simp only [sleep_self_pc]; rfl) calm
    next free =>
      cases taken
      exact inv.enter steady here (roomy.resolve_left free) rfl rfl rfl calm
  | log_write i b =>
    simp only [step, Option.ite_none_right_eq_some, inv.not_tooBig, Bool.false_eq_true, if_false] at taken
    obtain ⟨⟨calm, -, here⟩, taken⟩ := taken
    have busy := inv.outstanding_pos (i := i) (by rw [here]; rfl)
    rw [if_neg (by omega)] at taken
    cases taken
    exact inv.pass steady here modest rfl rfl rfl calm
  | record i =>
    simp only [step] at taken
    split at taken
    next b here =>
      obtain ⟨⟨calm, -⟩, rfl⟩ := of_guard taken
      exact inv.record steady here rfl rfl rfl calm
    next => cases taken
  | end_op i =>
    obtain ⟨⟨calm, -, here⟩, taken⟩ := Option.ite_none_right_eq_some.mp taken
    have running := inv.not_committing (i := i) (by rw [here]; rfl)
    rw [running, if_neg Bool.false_ne_true] at taken
    split at taken
    next last =>
      cases taken
      exact inv.leave (i := i) steady rfl rfl (fun j apart => by simp only [jump_of_ne apart])
        (by simp only [jump_self_pc]; rfl) rfl calm
    next more =>
      cases taken
      exact inv.leave (i := i) steady rfl rfl (fun j apart => by simp only [jump_of_ne apart, wakeup_pc])
        (by simp only [jump_self_pc]; rfl) rfl calm
  | commit i =>
    obtain ⟨⟨calm, -, here⟩, rfl⟩ := of_guard taken
    have alone := inv.nobody_inside (inv.quiet (inv.committing_of (i := i) (by rw [here]; rfl)))
    exact inv.commit steady alone rfl rfl rfl calm
  | finish i =>
    obtain ⟨⟨calm, -, here⟩, rfl⟩ := of_guard taken
    exact inv.idle steady i (fun j apart => by simp only [jump_of_ne apart, wakeup_pc]) rfl rfl rfl
      (by rw [here]; rfl) (by simp only [jump_self_pc]; rfl) calm

end Move

theorem Initial.inv {s : State ι} (start : Initial s) : Inv s := by
  have outside : ∀ i, (s.procs i).pc.inside = false := fun i => by rw [start.user i]; rfl
  refine ⟨start.steady, start.size, ?_, ?_, ?_, ?_, start.panic⟩
  · intro i here; rw [outside] at here; cases here
  · intro i b here; rw [start.user] at here; cases here
  · intro i here; rw [outside] at here; cases here
  · rw [used_of_outside outside]
    simp [spare, outside, start.block]

variable [DecidableEq ι]

/-- As long as every operation keeps to `MAXOPBLOCKS` blocks, the log overflows only if
`begin_op` has admitted an operation into the last two blocks of its reservation. -/
theorem reservation_sufficient {s t : State ι} {ls : List (Label ι)} (start : Initial s)
    (modest : Along step Modest s ls) (roomy : Along step Roomy s ls) (reached : run step s ls = some t) :
    t.panic ≠ some "too big a transaction" := by
  have both : Along step (fun s l => Modest s l ∧ Roomy s l) s ls :=
    fun before l after split u there => ⟨modest before l after split u there, roomy before l after split u there⟩
  have inv := run_invariant_along step Inv (fun _ _ _ inv good taken => inv.preserved good.1 good.2 taken) start.inv both reached
  rw [inv.calm]
  exact Option.some_ne_none _ |>.symm

theorem booted_initial : Initial booted := ⟨booted_started, rfl⟩

local instance : NeZero 3 := ⟨three_ne_zero⟩

def oneAfterTheOther : List (Label (Fin 3)) :=
  enter 0 ++ logBlocks 0 60 10 ++ logBlocks 0 60 1 ++ [.end_op 0, .commit 0, .finish 0] ++ enter 1 ++ logBlocks 1 60 3

theorem reservation_sufficient_oneAfterTheOther :
    ∃ t, run step booted oneAfterTheOther = some t ∧ t.panic ≠ some "too big a transaction" := by
  have completes : (run step booted oneAfterTheOther).isSome = true := by decide +kernel
  obtain ⟨t, reached⟩ := Option.isSome_iff_exists.mp completes
  exact ⟨t, reached, reservation_sufficient booted_initial (by decide +kernel) (by decide +kernel) reached⟩

def threeAtOnce : List (Label (Fin 3)) :=
  enter 0 ++ enter 1 ++ enter 2 ++ logBlocks 0 60 10 ++ logBlocks 1 70 10 ++ logBlocks 2 80 9 ++ [.log_write 2 89]

theorem threeAtOnce_overflows :
    Initial booted ∧ Along step Modest booted threeAtOnce ∧
      ∃ t, run step booted threeAtOnce = some t ∧ t.panic = some "too big a transaction" := by
  refine ⟨booted_initial, by decide +kernel, ?_⟩
  have outcome : (run step booted threeAtOnce).any (fun t => t.panic = some "too big a transaction") = true := by
    decide +kernel
  obtain ⟨t, reached, panic⟩ := (Option.any_eq_true _ _).mp outcome
  exact ⟨t, reached, of_decide_eq_true panic⟩

end Reservation

end Xv6.Log.Admission
