import Xv6.Proc.Wait

/-! The numbers that `allocproc` gives to processes, over runs of any length. -/

namespace Xv6.Ptable
open Lib Lib.Transition

/-- The processes in the table have different, positive numbers. -/
structure PidsIdentify (s : State) : Prop where
  positive : ∀ i, (s.proc i).state ≠ .unused → 0 < (s.proc i).pid.toInt
  distinct : ∀ i j, (s.proc i).state ≠ .unused → (s.proc j).state ≠ .unused → (s.proc i).pid = (s.proc j).pid → i = j

def allocates (s : State) : Label → Bool
  | .fork p => decide (s.At p .user) && (unused s.proc).isSome
  | _ => false

def allocations (s : State) : List Label → Nat
  | [] => 0
  | l :: ls => (if allocates s l then 1 else 0) + match step s l with
    | some t => allocations t ls
    | none => 0

/-- A process in slot `j` after the step was there before, with the same number. -/
def Kept (s t : State) (j : Fin NPROC) : Prop :=
  (t.proc j).state ≠ .unused → (s.proc j).state ≠ .unused ∧ (t.proc j).pid = (s.proc j).pid

section Steps

variable {s t u : State} {p np i j : Fin NPROC} {l : Label}

theorem Kept.refl (s : State) (j : Fin NPROC) : Kept s s j := fun used => ⟨used, rfl⟩

theorem Kept.trans (first : Kept s t j) (second : Kept t u j) : Kept s u j := by
  intro used
  obtain ⟨middle, same⟩ := second used
  obtain ⟨start, same'⟩ := first middle
  exact ⟨start, same.trans same'⟩

theorem Kept.set {slot : Slot} (here : slot.state ≠ .unused → (s.proc i).state ≠ .unused ∧ slot.pid = (s.proc i).pid) :
    Kept s (s.set i slot) j := by
  by_cases same : j = i
  · subst same
    unfold Kept
    rw [State.set_self]
    exact here
  · unfold Kept
    rw [State.set_of_ne _ _ same]
    exact fun used => ⟨used, rfl⟩

theorem Kept.goto (pc : Pc) : Kept s (s.goto p pc) j := Kept.set fun used => ⟨used, rfl⟩

theorem Kept.giveUp : Kept s (s.giveUp p np) j := by
  apply Kept.trans (Kept.set _) (Kept.goto _)
  intro wrong
  exact absurd rfl wrong

theorem Kept.wakeup1 (chan : Option Chan) : Kept s { s with proc := wakeup1 s.proc chan } j := by
  unfold Kept Ptable.wakeup1
  dsimp only
  split
  next asleep =>
    rw [asleep.1]
    exact fun _ => ⟨nofun, rfl⟩
  next => exact fun used => ⟨used, rfl⟩

theorem Kept.exit (running : (s.proc p).state = .running) (other : p ≠ initproc) (history : List Event) :
    Kept s { s with proc := exit s.proc p, history := history } j := by
  unfold Kept
  dsimp only
  rw [exit_slot other]
  dsimp only
  split
  next same =>
    subst same
    rw [running]
    exact fun _ => ⟨nofun, rfl⟩
  next =>
    split
    next asleep =>
      rw [asleep.1]
      exact fun _ => ⟨nofun, rfl⟩
    next => exact fun used => ⟨used, rfl⟩

theorem Kept.scan (running : (s.proc p).state = .running) : Kept s (scan s p) j := by
  unfold Ptable.scan
  split
  next i found =>
    apply Kept.trans (Kept.set _) (Kept.goto _)
    intro wrong
    exact absurd rfl wrong
  next =>
    split
    · exact Kept.goto _
    · apply Kept.set
      rw [running]
      exact fun _ => ⟨nofun, rfl⟩

inductive Numbers (s t : State) : Bool → Prop
  | keeps (nextpid : t.nextpid = s.nextpid) (kept : ∀ j, Kept s t j) : Numbers s t false
  | takes (np : Fin NPROC) (nextpid : t.nextpid = s.nextpid + 1) (used : (t.proc np).state ≠ .unused)
    (pid : (t.proc np).pid = s.nextpid) (kept : ∀ j, j ≠ np → Kept s t j) : Numbers s t true

theorem numbers_fork (taken : step s (.fork p) = some t) : Numbers s t (allocates s (.fork p)) := by
  simp only [step] at taken
  split at taken
  next here =>
    cases found : unused s.proc with
    | none =>
      rw [found] at taken
      cases taken
      have no : allocates s (.fork p) = false := by simp [allocates, found]
      rw [no]
      exact .keeps rfl (Kept.refl s)
    | some np =>
      rw [found] at taken
      cases taken
      have yes : allocates s (.fork p) = true := by simp [allocates, found, here]
      have free : (s.proc np).state = .unused := by
        have := List.find?_some found
        simpa using this
      have apart : np ≠ p := by
        rintro rfl
        rw [here.1] at free
        cases free
      rw [yes]
      have slot : (((s.set np { s.proc np with state := .embryo, pid := s.nextpid }).goto p (.forkStack np)).proc np) =
          { s.proc np with state := .embryo, pid := s.nextpid } := (State.goto_of_ne _ _ apart).trans (State.set_self ..)
      refine .takes np rfl ?_ ?_ fun j other => ?_
      · change (State.proc (State.goto _ _ _) np).state ≠ _
        rw [slot]
        exact ProcState.noConfusion
      · change (State.proc (State.goto _ _ _) np).pid = _
        rw [slot]
      · have before : Kept s (s.set np { s.proc np with state := .embryo, pid := s.nextpid }) j := by
          unfold Kept
          rw [State.set_of_ne _ _ other]
          exact fun used => ⟨used, rfl⟩
        exact before.trans (Kept.goto _)
  next => cases taken

theorem step_numbers (inv : Inv s) (taken : step s l = some t) : Numbers s t (allocates s l) := by
  cases l with
  | fork p => exact numbers_fork taken
  | forkStack p ok =>
    simp only [step] at taken
    split at taken
    next np running pc =>
      cases taken
      cases ok with
      | false => exact .keeps rfl fun j => Kept.giveUp
      | true => exact .keeps rfl fun j => Kept.goto _
    next => cases taken
  | forkCopy p ok =>
    simp only [step] at taken
    split at taken
    next np running pc =>
      cases taken
      cases ok with
      | false => exact .keeps rfl fun j => Kept.giveUp
      | true =>
        refine .keeps rfl fun j => ?_
        have adopted : Kept s (s.set np { s.proc np with parent := some p }) j := Kept.set fun used => ⟨used, rfl⟩
        exact adopted.trans (Kept.goto _)
    next => cases taken
  | forkDone p =>
    simp only [step] at taken
    split at taken
    next np running pc =>
      have embryo := inv.taken p np (by rw [pc]; rfl)
      cases taken
      refine .keeps rfl fun j => Kept.trans (Kept.set (i := np) ?_) (Kept.goto _)
      intro _
      rw [embryo]
      exact ⟨ProcState.noConfusion, rfl⟩
    next => cases taken
  | exit p =>
    obtain ⟨here, rfl⟩ := of_guard taken
    exact .keeps rfl fun j => Kept.exit here.1.1 here.2 _
  | wait p =>
    obtain ⟨here, rfl⟩ := of_guard taken
    have running : (s.proc p).state = .running := here.elim (·.1) (·.1)
    refine .keeps ?_ fun j => Kept.scan running
    unfold scan
    split
    · rfl
    · split <;> rfl
  | kill p pid =>
    simp only [step] at taken
    split at taken
    next here =>
      split at taken
      next i found =>
        cases taken
        refine .keeps rfl fun j => Kept.set ?_
        dsimp only
        split
        next asleep =>
          rw [asleep]
          exact fun _ => ⟨ProcState.noConfusion, rfl⟩
        next => exact fun used => ⟨used, rfl⟩
      next =>
        cases taken
        exact .keeps rfl (Kept.refl s)
    next => cases taken
  | sleep p chan =>
    obtain ⟨here, rfl⟩ := of_guard taken
    refine .keeps rfl fun j => Kept.set ?_
    rw [here.1]
    exact fun _ => ⟨ProcState.noConfusion, rfl⟩
  | wakeup chan =>
    cases taken
    exact .keeps rfl fun j => Kept.wakeup1 _
  | yield p =>
    obtain ⟨running, rfl⟩ := of_guard taken
    refine .keeps rfl fun j => Kept.set ?_
    rw [running]
    exact fun _ => ⟨ProcState.noConfusion, rfl⟩
  | schedule p =>
    obtain ⟨runnable, rfl⟩ := of_guard taken
    refine .keeps rfl fun j => Kept.set ?_
    rw [runnable]
    exact fun _ => ⟨ProcState.noConfusion, rfl⟩

end Steps

/-- The table after `n` calls of `allocproc`, as long as `nextpid` has not wrapped. -/
structure Numbered (n : Nat) (s : State) : Prop where
  nextpid : s.nextpid = BitVec.ofNat 32 (n + 2)
  range : ∀ i, (s.proc i).state ≠ .unused → 0 < (s.proc i).pid.toNat ∧ (s.proc i).pid.toNat < n + 2
  distinct : ∀ i j, (s.proc i).state ≠ .unused → (s.proc j).state ≠ .unused → (s.proc i).pid = (s.proc j).pid → i = j

section Runs

variable {s t : State} {n : Nat} {l : Label}

theorem toInt_pos_iff {pid : BitVec 32} : 0 < pid.toInt ↔ 0 < pid.toNat ∧ pid.toNat < 2 ^ 31 := by
  rw [BitVec.toInt_eq_toNat_cond]
  have := pid.isLt
  split <;> omega

theorem Numbered.identify (numbered : Numbered n s) (few : n + 2 ≤ 2 ^ 31) : PidsIdentify s := by
  refine ⟨fun i used => ?_, numbered.distinct⟩
  have range := numbered.range i used
  rw [toInt_pos_iff]
  omega

theorem Numbered.keeps (numbered : Numbered n s) (nextpid : t.nextpid = s.nextpid) (kept : ∀ j, Kept s t j) :
    Numbered n t := by
  refine ⟨nextpid.trans numbered.nextpid, fun i used => ?_, fun i j usedI usedJ same => ?_⟩
  · obtain ⟨before, pid⟩ := kept i used
    rw [pid]
    exact numbered.range i before
  · obtain ⟨beforeI, pidI⟩ := kept i usedI
    obtain ⟨beforeJ, pidJ⟩ := kept j usedJ
    exact numbered.distinct i j beforeI beforeJ (by rw [← pidI, ← pidJ, same])

theorem Numbered.takes (numbered : Numbered n s) (few : n + 2 < 2 ^ 32) {np : Fin NPROC}
    (nextpid : t.nextpid = s.nextpid + 1) (pid : (t.proc np).pid = s.nextpid)
    (kept : ∀ j, j ≠ np → Kept s t j) : Numbered (n + 1) t := by
  have fresh : (t.proc np).pid.toNat = n + 2 := by
    rw [pid, numbered.nextpid, BitVec.toNat_ofNat, Nat.mod_eq_of_lt few]
  have older : ∀ j, j ≠ np → (t.proc j).state ≠ .unused → 0 < (t.proc j).pid.toNat ∧ (t.proc j).pid.toNat < n + 2 := by
    intro j other used
    obtain ⟨before, same⟩ := kept j other used
    rw [same]
    exact numbered.range j before
  refine ⟨?_, fun i used => ?_, fun i j usedI usedJ same => ?_⟩
  · rw [nextpid, numbered.nextpid, show n + 1 + 2 = n + 2 + 1 by omega]
    exact (BitVec.ofNat_add (n + 2) 1).symm
  · by_cases here : i = np
    · rw [here, fresh]
      omega
    · have := older i here used
      omega
  · by_cases first : i = np
    · by_cases second : j = np
      · rw [first, second]
      · have := older j second usedJ
        rw [← same, first, fresh] at this
        omega
    · by_cases second : j = np
      · have := older i first usedI
        rw [same, second, fresh] at this
        omega
      · obtain ⟨beforeI, pidI⟩ := kept i first usedI
        obtain ⟨beforeJ, pidJ⟩ := kept j second usedJ
        exact numbered.distinct i j beforeI beforeJ (by rw [← pidI, ← pidJ, same])

theorem Numbered.negative (numbered : Numbered n s) (last : n + 2 = 2 ^ 31) {np : Fin NPROC}
    (used : (t.proc np).state ≠ .unused) (pid : (t.proc np).pid = s.nextpid) : ¬ PidsIdentify t := by
  intro identify
  have positive := identify.positive np used
  rw [pid, numbered.nextpid, last] at positive
  exact absurd positive (by decide)

theorem Numbered.boot : Numbered 0 boot := by
  have used : ∀ i, (Ptable.boot.proc i).state ≠ .unused → i = initproc := by decide
  refine ⟨rfl, fun i here => ?_, fun i j hereI hereJ _ => ?_⟩
  · rw [used i here]
    decide
  · rw [used i hereI, used j hereJ]

/-- `P` holds in every state of the run, the first and the last one included. -/
def Throughout (P : State → Prop) (s : State) (ls : List Label) : Prop :=
  ∀ before after, ls = before ++ after → ∀ u, run step s before = some u → P u

variable {P : State → Prop}

theorem throughout_nil : Throughout P s [] ↔ P s := by
  constructor
  · intro always
    exact always [] [] rfl s rfl
  · intro here before after split u reached
    obtain rfl : before = [] := (List.append_eq_nil_iff.mp split.symm).1
    cases reached
    exact here

variable {ls : List Label}

theorem throughout_cons (taken : step s l = some t) :
    Throughout P s (l :: ls) ↔ P s ∧ Throughout P t ls := by
  constructor
  · intro always
    refine ⟨always [] (l :: ls) rfl s rfl, fun before after split u reached => ?_⟩
    exact always (l :: before) after (by rw [split]; rfl) u (by rw [run_cons, taken]; exact reached)
  · rintro ⟨here, rest⟩ before after split u reached
    cases before with
    | nil =>
      cases reached
      exact here
    | cons k before =>
      cases split
      rw [run_cons, taken] at reached
      exact rest before after rfl u reached

theorem Throughout.start (always : Throughout P s ls) : P s :=
  always [] ls rfl s rfl

theorem identify_throughout (inv : Inv s) (numbered : Numbered n s) (few : n + 2 ≤ 2 ^ 31)
    (reached : run step s ls = some t) :
    Throughout PidsIdentify s ls ↔ n + allocations s ls + 2 ≤ 2 ^ 31 := by
  induction ls generalizing s n with
  | nil =>
    rw [throughout_nil]
    exact ⟨fun _ => few, fun _ => numbered.identify few⟩
  | cons l ls ih =>
    rw [run_cons] at reached
    obtain ⟨u, taken, rest⟩ := Option.bind_eq_some_iff.mp reached
    have inv' := step_inv inv taken
    have numbers := step_numbers inv taken
    rw [throughout_cons taken, allocations, taken, and_iff_right (numbered.identify few)]
    cases here : allocates s l with
    | false =>
      rw [here] at numbers
      cases numbers with
      | keeps nextpid kept =>
        rw [ih inv' (numbered.keeps nextpid kept) few rest]
        simp
    | true =>
      rw [here] at numbers
      cases numbers with
      | takes np nextpid used pid kept =>
        by_cases last : n + 2 = 2 ^ 31
        · refine iff_of_false (fun always => numbered.negative last used pid always.start) ?_
          simp only [if_true]
          omega
        · rw [ih inv' (numbered.takes (by omega) nextpid pid kept) (by omega) rest]
          simp only [if_true]
          omega

/-- The numbers identify the processes all through a run if and only if `allocproc` is called
at most `2 ^ 31 - 2` times in it. -/
theorem pids_identify_iff {ls : List Label} (reached : run step boot ls = some s) :
    Throughout PidsIdentify boot ls ↔ allocations boot ls ≤ 2 ^ 31 - 2 := by
  rw [identify_throughout Inv.boot Numbered.boot (by decide) reached]
  omega

def firstFork : List Label := [.schedule initproc, .fork initproc]

theorem pids_identify_firstFork : Throughout PidsIdentify boot firstFork := by
  obtain ⟨s, reached⟩ := Option.isSome_iff_exists.mp (by decide : (run step boot firstFork).isSome = true)
  exact (pids_identify_iff reached).mpr (by decide)

end Runs

def round : List Label :=
  [.fork 0, .forkStack 0 true, .forkCopy 0 true, .forkDone 0, .schedule 1, .exit 1, .wait 0]

structure Shows (s : State) (first second : Slot) : Prop where
  zero : s.proc 0 = first
  one : s.proc 1 = second
  rest : ∀ i, i ≠ 0 → i ≠ 1 → (s.proc i).state = .unused ∧ (s.proc i).parent = none

section Rounds

variable {s : State} {first second slot : Slot} {n : Nat}

theorem Shows.set (shows : Shows s first second) : Shows (s.set 1 slot) first slot :=
  ⟨(State.set_of_ne _ _ (by decide)).trans shows.zero, State.set_self .., fun i zero one => by
    rw [State.set_of_ne _ _ one]
    exact shows.rest i zero one⟩

theorem Shows.goto (shows : Shows s first second) (pc : Pc) : Shows (s.goto 0 pc) { first with pc := pc } second :=
  ⟨(State.goto_self ..).trans (by rw [shows.zero]), (State.goto_of_ne _ _ (by decide)).trans shows.one,
    fun i zero one => by
      rw [State.goto_of_ne _ _ zero]
      exact shows.rest i zero one⟩

theorem Shows.congr {t : State} (shows : Shows s first second) (same : t.proc = s.proc) : Shows t first second :=
  ⟨same ▸ shows.zero, same ▸ shows.one, same ▸ shows.rest⟩

theorem finRange_cons : ∃ rest, List.finRange NPROC = 0 :: 1 :: rest := ⟨_, rfl⟩

theorem Shows.unused (shows : Shows s first second) (busy : first.state ≠ .unused) (free : second.state = .unused) :
    unused s.proc = some 1 := by
  obtain ⟨rest, cons⟩ := finRange_cons
  rw [Ptable.unused, cons]
  simp [shows.zero, shows.one, busy, free]

theorem Shows.zombie (shows : Shows s first second) (orphan : first.parent = none) (child : second.parent = some 0)
    (done : second.state = .zombie) : zombie s.proc 0 = some 1 := by
  obtain ⟨rest, cons⟩ := finRange_cons
  rw [Ptable.zombie, cons]
  simp [shows.zero, shows.one, orphan, child, done]

theorem Shows.exit (shows : Shows s first second) (running : first.state = .running) (orphan : first.parent = none)
    (child : second.parent = some 0) (history : List Event) :
    Shows { s with proc := exit s.proc 1, history := history } first { second with state := .zombie } := by
  have apart : (1 : Fin NPROC) ≠ initproc := by decide
  constructor
  case zero =>
    dsimp only
    rw [exit_slot apart, shows.zero]
    simp only [orphan, running, reduceCtorEq, false_and, if_false, show (0 : Fin NPROC) ≠ 1 by decide]
    rw [← orphan, ← running]
  case one =>
    dsimp only
    rw [exit_slot apart, shows.one]
    simp only [child, if_true, show some (0 : Fin NPROC) ≠ some 1 by decide, if_false]
  case rest =>
    intro i zero one
    obtain ⟨state, parent⟩ := shows.rest i zero one
    dsimp only
    rw [exit_slot apart]
    simp only [state, parent, one, reduceCtorEq, false_and, if_false, and_self]

structure Lone (n : Nat) (s : State) : Prop where
  nextpid : s.nextpid = BitVec.ofNat 32 (n + 2)
  shows : ∃ first second, Shows s first second ∧ first.state = .running ∧ first.pid = 1 ∧ first.parent = none ∧
    first.pc = .user ∧ second.state = .unused

theorem Lone.fork (lone : Lone n s) : ∃ t first second,
    run step s [.fork 0, .forkStack 0 true, .forkCopy 0 true, .forkDone 0] = some t ∧ Shows t first second ∧
      first.state = .running ∧ first.pid = 1 ∧ first.parent = none ∧ first.pc = .user ∧
      second.state = .runnable ∧ second.parent = some 0 ∧ second.pc = .user ∧ second.pid = BitVec.ofNat 32 (n + 2) ∧
      t.nextpid = BitVec.ofNat 32 (n + 1 + 2) := by
  obtain ⟨nextpid, first, second, shows, running, pid, orphan, pc, free⟩ := lone
  have found := shows.unused (by rw [running]; exact nofun) free
  let embryo : Slot := { second with state := .embryo, pid := s.nextpid }
  let t₁ : State := { (s.set 1 embryo).goto 0 (.forkStack 1) with nextpid := s.nextpid + 1 }
  have shows₁ : Shows t₁ { first with pc := .forkStack 1 } embryo := (shows.set.goto _).congr rfl
  have step₁ : step s (.fork 0) = some t₁ := by
    simp [step, State.At, shows.zero, shows.one, running, pc, found, t₁, embryo]
  let t₂ := t₁.goto 0 (.forkCopy 1)
  have shows₂ : Shows t₂ { first with pc := .forkCopy 1 } embryo := shows₁.goto _
  have step₂ : step t₁ (.forkStack 0 true) = some t₂ := by
    simp [step, shows₁.zero, running, t₂]
  let t₃ := (t₂.set 1 { embryo with parent := some 0 }).goto 0 (.forkReady 1)
  have shows₃ : Shows t₃ { first with pc := .forkReady 1 } { embryo with parent := some 0 } := shows₂.set.goto _
  have step₃ : step t₂ (.forkCopy 0 true) = some t₃ := by
    simp [step, shows₂.zero, shows₂.one, running, t₃]
  let child : Slot := { embryo with parent := some 0, state := .runnable, pc := .user, id := t₃.births }
  let t₄ : State := { (t₃.set 1 child).goto 0 .user with
    births := t₃.births + 1
    history := .forked t₃.births first.id :: t₃.history }
  have shows₄ : Shows t₄ { first with pc := .user } child := (shows₃.set.goto _).congr rfl
  have step₄ : step t₃ (.forkDone 0) = some t₄ := by
    simp [step, shows₃.zero, shows₃.one, running, t₄, child]
  refine ⟨t₄, { first with pc := .user }, child, ?_, shows₄, running, pid, orphan, rfl, rfl, rfl, rfl, nextpid, ?_⟩
  · simp only [run_cons, run_nil, step₁, step₂, step₃, step₄, Option.bind_some]
  · change s.nextpid + 1 = _
    rw [nextpid, show n + 1 + 2 = n + 2 + 1 by omega]
    exact (BitVec.ofNat_add (n + 2) 1).symm

theorem Lone.round (lone : Lone n s) : ∃ t, run step s round = some t ∧ Lone (n + 1) t := by
  obtain ⟨t, first, second, forked, shows, running, pid, orphan, pc, runnable, parent, user, -, nextpid⟩ := lone.fork
  let t₁ := t.set 1 { second with state := .running, chan := none }
  have shows₁ : Shows t₁ first { second with state := .running, chan := none } := shows.set
  have step₁ : step t (.schedule 1) = some t₁ := by
    simp [step, shows.one, runnable, t₁]
  let t₂ : State := { t₁ with proc := exit t₁.proc 1, history := .exited second.id :: t₁.history }
  have shows₂ : Shows t₂ first { second with state := .zombie, chan := none } := shows₁.exit running orphan parent _
  have step₂ : step t₁ (.exit 1) = some t₂ := by
    have other : (1 : Fin NPROC) ≠ initproc := by decide
    simp [step, State.At, shows₁.one, user, t₂, other]
  let freed : Slot := { second with pid := 0, parent := none, killed := false, state := .unused, chan := none }
  let t₃ : State := { (t₂.set 1 freed).goto 0 .user with history := .waited second.id first.id :: t₂.history }
  have shows₃ : Shows t₃ { first with pc := .user } freed := (shows₂.set.goto _).congr rfl
  have step₃ : step t₂ (.wait 0) = some t₃ := by
    have found := shows₂.zombie orphan parent rfl
    simp [step, State.At, shows₂.zero, shows₂.one, running, pc, scan, found, t₃, freed]
  refine ⟨t₃, ?_, nextpid, { first with pc := .user }, freed, shows₃, running, pid, orphan, rfl, rfl⟩
  rw [Ptable.round, show ∀ a b c d e f g : Label, [a, b, c, d, e, f, g] = [a, b, c, d] ++ [e, f, g] from fun _ _ _ _ _ _ _ => rfl,
    run_append, forked]
  simp only [Option.bind_some, run_cons, run_nil, step₁, step₂, step₃]

theorem lone_rounds (n : Nat) : ∃ ls s, run step boot ls = some s ∧ Lone n s := by
  induction n with
  | zero =>
    refine ⟨[.schedule 0], boot.set 0 { boot.proc 0 with state := .running, chan := none }, rfl, rfl, _, _,
      ⟨rfl, rfl, ?_⟩, rfl, rfl, rfl, rfl, rfl⟩
    decide
  | succ n ih =>
    obtain ⟨ls, s, reached, lone⟩ := ih
    obtain ⟨t, taken, next⟩ := lone.round
    exact ⟨ls ++ Ptable.round, t, by rw [run_append, reached]; exact taken, next⟩

/-- After enough processes have come and gone, one gets the number of the first process. -/
theorem pids_collide : ∃ ls s, run step boot ls = some s ∧ (s.proc 0).state = .running ∧ (s.proc 1).state = .runnable ∧
    (s.proc 0).pid = 1 ∧ (s.proc 1).pid = 1 ∧ ¬ PidsIdentify s := by
  obtain ⟨ls, s, reached, lone⟩ := lone_rounds (2 ^ 32 - 1)
  obtain ⟨t, first, second, forked, shows, running, pid, -, -, runnable, -, -, pid', -⟩ := lone.fork
  have wrapped : second.pid = 1 := pid'.trans (by decide)
  refine ⟨ls ++ [.fork 0, .forkStack 0 true, .forkCopy 0 true, .forkDone 0], t, ?_, ?_⟩
  · rw [run_append, reached]
    exact forked
  · rw [shows.zero, shows.one]
    refine ⟨running, runnable, pid, wrapped, fun identify => ?_⟩
    have same := identify.distinct 0 1 (by rw [shows.zero, running]; exact nofun) (by rw [shows.one, runnable]; exact nofun)
      (by rw [shows.zero, shows.one, pid, wrapped])
    exact absurd same (by decide)

end Rounds

end Xv6.Ptable
