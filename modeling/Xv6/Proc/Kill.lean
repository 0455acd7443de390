import Xv6.Proc.Wait

/-! `kill` looks at the pid of every slot, and slots that no process is in have one as well.
`killed` then stays set in the free slot, since only `wait` clears it. -/

namespace Xv6.Ptable
open Lib Lib.Transition

def killResult (s : State) (pid : BitVec 32) : Int := if (target s.proc pid).isSome then 0 else -1

/-- No process is in the slot, or one that `fork` has not returned yet. -/
def Slot.Vacant (slot : Slot) : Prop := slot.state = .unused ∨ slot.state = .embryo

instance (slot : Slot) : Decidable slot.Vacant := inferInstanceAs (Decidable (_ ∨ _))

/-- `kill` is not called with a pid that it finds in a vacant slot first. -/
def Aimed (s : State) : Label → Prop
  | .kill _ pid => ∀ i ∈ target s.proc pid, ¬ (s.proc i).Vacant
  | _ => True

instance (s : State) : (l : Label) → Decidable (Aimed s l)
  | .kill _ pid => inferInstanceAs (Decidable (∀ i ∈ target s.proc pid, ¬ (s.proc i).Vacant))
  | .fork _ | .forkStack _ _ | .forkCopy _ _ | .forkDone _ | .exit _ | .wait _ | .sleep _ _ | .wakeup _ | .yield _
  | .schedule _ => isTrue trivial

/-- A process that `fork` is about to return has not been killed. -/
def ForkAlive (s : State) (l : Label) : Prop :=
  ∀ p np, l = .forkDone p → (s.proc p).pc = .forkReady np → (s.proc np).killed = false

/-- `kill` returns 0 only for the pid of a process. -/
def KillFinds (s : State) (l : Label) : Prop :=
  ∀ p pid, l = .kill p pid → killResult s pid = 0 → ∃ i, (s.proc i).state ≠ .unused ∧ (s.proc i).pid = pid

def Unharmed (s : State) : Prop := ∀ i, (s.proc i).Vacant → (s.proc i).killed = false

section Steps

variable {s t : State} {l : Label} {i : Fin NPROC}

theorem killed_of_step (taken : step s l = some t) (killed : (t.proc i).killed = true) :
    (s.proc i).killed = true ∨ ∃ p pid, l = .kill p pid ∧ target s.proc pid = some i := by
  -- `killed` is the same in a slot that was set, or the slot is another one
  have set : ∀ {u : State} {j slot}, ((u.set j slot).proc i).killed = true → (slot.killed = true → (u.proc j).killed = true) →
      (u.proc i).killed = true := fun {u j slot} here same => by
    by_cases own : i = j
    · subst own
      rw [State.set_self] at here
      exact same here
    · rwa [State.set_of_ne _ _ own] at here
  have wakes : ∀ {chan}, (wakeup1 s.proc chan i).killed = (s.proc i).killed := by
    intro chan
    unfold wakeup1
    split <;> rfl
  cases l <;> simp only [step] at taken
  case fork =>
    split at taken
    · split at taken <;> cases taken
      · exact .inl killed
      · exact .inl (set (set killed id) id)
    · cases taken
  case forkStack p ok =>
    split at taken <;> cases taken
    cases ok
    · exact .inl (set (set killed id) id)
    · exact .inl (set killed id)
  case forkCopy p ok =>
    split at taken <;> cases taken
    cases ok
    · exact .inl (set (set killed id) id)
    · exact .inl (set (set killed id) id)
  case forkDone =>
    split at taken <;> cases taken
    exact .inl (set (set killed id) id)
  case exit p =>
    split at taken
    next here =>
      cases taken
      change (exit s.proc p i).killed = true at killed
      rw [exit_slot here.2] at killed
      exact .inl killed
    next => cases taken
  case wait p =>
    split at taken <;> cases taken
    unfold scan at killed
    split at killed
    · exact .inl (set (set killed id) fun wrong => by cases wrong)
    · split at killed
      · exact .inl (set killed id)
      · exact .inl (set killed id)
  case kill p pid =>
    split at taken
    · split at taken
      next j found =>
        cases taken
        by_cases own : i = j
        · exact .inr ⟨p, pid, rfl, own ▸ found⟩
        · rw [State.set_of_ne _ _ own] at killed
          exact .inl killed
      next =>
        cases taken
        exact .inl killed
    · cases taken
  case sleep =>
    split at taken <;> cases taken
    exact .inl (set killed id)
  case wakeup =>
    cases taken
    exact .inl (wakes ▸ killed)
  case yield =>
    split at taken <;> cases taken
    exact .inl (set killed id)
  case schedule =>
    split at taken <;> cases taken
    exact .inl (set killed id)

theorem vacant_of_step (inv : Inv s) (taken : step s l = some t) (vacant : (t.proc i).Vacant) :
    (s.proc i).Vacant ∨ (t.proc i).killed = false := by
  rcases step_cases inv taken with still | ⟨p, np, pc, forks⟩ | ⟨p, exits⟩ | ⟨p, j, reaps⟩
  · rcases still.state i with same | both
    · exact .inl (by rwa [Slot.Vacant, ← same])
    · exact absurd vacant (not_or.mpr ⟨both.2.ne_unused, both.2.ne_embryo⟩)
  · by_cases own : i = np
    · exact .inl (own ▸ forks.vacant)
    · by_cases caller : i = p
      · rw [caller, forks.caller] at vacant
        exact .inl (caller ▸ vacant)
      · rw [forks.kept i caller own] at vacant
        exact .inl vacant
  · rw [Slot.Vacant, show t.proc i = _ from (congrFun exits.proc i).trans (exit_slot exits.other i)] at vacant
    dsimp only at vacant
    by_cases caller : i = p
    · rw [if_pos caller] at vacant
      rcases vacant with wrong | wrong <;> cases wrong
    · rw [if_neg caller] at vacant
      split at vacant
      · rcases vacant with wrong | wrong <;> cases wrong
      · exact .inl vacant
  · by_cases own : i = j
    · exact .inr (own ▸ reaps.freed.2.2)
    · by_cases caller : i = p
      · rw [caller, reaps.caller] at vacant
        exact .inl (caller ▸ vacant)
      · rw [reaps.kept i caller own] at vacant
        exact .inl vacant

theorem Unharmed.step (unharmed : Unharmed s) (inv : Inv s) (aimed : Aimed s l) (taken : step s l = some t) :
    Unharmed t := by
  intro i vacant
  rcases vacant_of_step inv taken vacant with before | clear
  · by_contra killed
    rcases killed_of_step taken (Bool.not_eq_false _ ▸ killed) with already | ⟨p, pid, same, found⟩
    · rw [unharmed i before] at already
      cases already
    · subst same
      exact aimed i found before
  · exact clear

theorem Unharmed.forkAlive (unharmed : Unharmed s) (inv : Inv s) : ForkAlive s l := fun p np _ pc =>
  unharmed np (.inr (inv.taken p np (by rw [pc]; rfl)))

theorem Aimed.killFinds (aimed : Aimed s l) : KillFinds s l := by
  intro p pid same result
  unfold killResult at result
  split at result
  next found =>
    obtain ⟨i, here⟩ := Option.isSome_iff_exists.mp found
    have pids : (s.proc i).pid = pid := by simpa using List.find?_some here
    subst same
    exact ⟨i, fun unused => aimed i here (.inl unused), pids⟩
  next => cases result

end Steps

theorem Unharmed.boot : Unharmed boot := fun i _ => by
  rw [boot_slot]
  split <;> rfl

/-- `kill(0)` by the first process strikes a free slot, and the process that `fork` then puts
there is killed. -/
theorem kill_free_slot :
    killResult boot 0 = 0 ∧ (∀ i, (boot.proc i).state ≠ .unused → (boot.proc i).pid ≠ 0) ∧
    (run step boot [.schedule 0, .kill 0 0]).map (fun s => ((s.proc 1).state, (s.proc 1).killed)) =
      some (.unused, true) ∧
    (run step boot [.schedule 0, .kill 0 0, .fork 0, .forkStack 0 true, .forkCopy 0 true, .forkDone 0]).map
      (fun s => ((s.proc 1).state, (s.proc 1).killed)) = some (.runnable, true) := by
  decide +kernel

/-- In a run in which `kill` is never called with a pid it finds in a vacant slot, `killed` is
clear in every free slot, `fork` returns no killed process, and `kill` finds processes only. -/
theorem killed_only_by_kill {s : State} {ls : List Label} (aimed : Along step Aimed boot ls)
    (reached : run step boot ls = some s) :
    (∀ i, (s.proc i).state = .unused → (s.proc i).killed = false) ∧ Along step ForkAlive boot ls ∧
      Along step KillFinds boot ls := by
  have safe : ∀ before, ∀ t, Along step Aimed boot before → run step boot before = some t → Inv t ∧ Unharmed t :=
    fun before t along earlier => run_invariant_along step (fun s => Inv s ∧ Unharmed s)
      (fun _ _ _ both here taken => ⟨step_inv both.1 taken, both.2.step both.1 here taken⟩) ⟨.boot, .boot⟩ along earlier
  refine ⟨fun i unused => (safe ls s aimed reached).2 i (.inl unused), ?_, ?_⟩
  · intro before l after split t earlier
    obtain ⟨inv, unharmed⟩ := safe before t (Along.initial step (split ▸ aimed : Along step Aimed boot (before ++ l :: after))) earlier
    exact unharmed.forkAlive inv
  · intro before l after split t earlier
    exact (aimed before l after split t earlier).killFinds

theorem killed_only_by_kill_child :
    let ls := [.schedule 0, .fork 0, .forkStack 0 true, .forkCopy 0 true, .forkDone 0, .kill 0 2]
    Along step Aimed boot ls ∧ ∃ s, run step boot ls = some s ∧ (s.proc 1).killed = true ∧
      ∀ i, (s.proc i).state = .unused → (s.proc i).killed = false := by
  intro ls
  have aimed : Along step Aimed boot ls := by decide +kernel
  have ends : (run step boot ls).map (fun s => (s.proc 1).killed) = some true := by decide +kernel
  obtain ⟨s, reached, killed⟩ := Option.map_eq_some_iff.mp ends
  exact ⟨aimed, s, reached, killed, (killed_only_by_kill aimed reached).1⟩

end Xv6.Ptable
