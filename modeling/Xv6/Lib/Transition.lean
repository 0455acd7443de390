import Mathlib.Data.List.Induction
import Mathlib.Logic.Basic

/-! Runs of a labelled transition function. A step that is not enabled is `none`. -/

namespace Xv6.Lib.Transition

variable {State Label : Type*} (step : State → Label → Option State)

def run : State → List Label → Option State
  | s, [] => some s
  | s, l :: ls => (step s l).bind fun t => run t ls

@[simp] theorem run_nil (s : State) : run step s [] = some s := rfl

@[simp] theorem run_cons (s : State) (l : Label) (ls : List Label) :
    run step s (l :: ls) = (step s l).bind fun t => run step t ls := rfl

theorem of_guard {guard : Prop} [Decidable guard] {s t : State} (taken : (if guard then some s else none) = some t) :
    guard ∧ s = t := by
  rwa [Option.ite_none_right_eq_some, Option.some.injEq] at taken

theorem ok_of_toOption {ε α : Type*} {result : Except ε α} {value : α} (kept : result.toOption = some value) : result = .ok value := by
  cases result with
  | error e => cases kept
  | ok => rw [Option.some.inj kept]

theorem run_append (s : State) (first second : List Label) :
    run step s (first ++ second) = (run step s first).bind fun t => run step t second := by
  induction first generalizing s with
  | nil => rfl
  | cons l ls ih =>
    simp only [List.cons_append, run_cons]
    cases step s l with
    | none => rfl
    | some t => exact ih t

variable {s t : State} {ls : List Label} {l : Label}

theorem run_snoc (whole : run step s (ls ++ [l]) = some t) :
    ∃ u, run step s ls = some u ∧ step u l = some t := by
  rw [run_append] at whole
  cases first : run step s ls with
  | none => simp [first] at whole
  | some u =>
    refine ⟨u, rfl, ?_⟩
    cases last : step u l with
    | none => simp [first, last] at whole
    | some v => simpa [first, last] using whole

/-- Every step of the run `ls` from `s` is taken in a state where `good` holds of it. -/
def Along (good : State → Label → Prop) (s : State) (ls : List Label) : Prop :=
  ∀ before l after, ls = before ++ l :: after → ∀ t, run step s before = some t → good t l

variable {good : State → Label → Prop}

theorem Along.initial {first second : List Label}
    (along : Along step good s (first ++ second)) : Along step good s first := by
  intro before l after split t reached
  exact along before l (after ++ second) (by simp [split]) t reached

theorem Along.last (along : Along step good s (ls ++ [l])) (reached : run step s ls = some t) : good t l :=
  along ls l [] rfl t reached

theorem along_nil (good : State → Label → Prop) (s : State) : Along step good s [] := by
  intro before l after split
  simp at split

theorem along_of_mem {good : Label → Prop} (all : ∀ l ∈ ls, good l) (s : State) :
    Along step (fun _ l => good l) s ls := by
  intro before l after split _ _
  apply all
  rw [split]
  exact List.mem_append_right _ List.mem_cons_self

theorem along_cons :
    Along step good s (l :: ls) ↔ good s l ∧ ∀ t, step s l = some t → Along step good t ls := by
  constructor
  · intro along
    refine ⟨along [] l ls rfl s rfl, fun t taken before m after split u reached => ?_⟩
    exact along (l :: before) m after (by rw [split]; rfl) u (by rw [run_cons, taken]; exact reached)
  · rintro ⟨here, rest⟩ before m after split u reached
    cases before with
    | nil =>
      cases split
      cases reached
      exact here
    | cons k before =>
      cases split
      rw [run_cons] at reached
      obtain ⟨t, taken, later⟩ := Option.bind_eq_some_iff.mp reached
      exact rest t taken before m after rfl u later

instance decidableAlong {good : State → Label → Prop} [∀ s l, Decidable (good s l)] :
    (s : State) → (ls : List Label) → Decidable (Along step good s ls)
  | s, [] => isTrue (along_nil step good s)
  | s, l :: ls =>
    match taken : step s l with
    | none => decidable_of_iff (good s l) (by simp [along_cons, taken])
    | some t =>
      have : Decidable (Along step good t ls) := decidableAlong t ls
      decidable_of_iff (good s l ∧ Along step good t ls) (by simp [along_cons, taken])

/-- The invariant rule: what holds at the start and survives every good step holds
after every run of good steps. -/
theorem run_invariant_along (inv : State → Prop)
    (preserved : ∀ s l t, inv s → good s l → step s l = some t → inv t)
    (start : inv s) (along : Along step good s ls)
    (reached : run step s ls = some t) : inv t := by
  induction ls using List.reverseRecOn generalizing t with
  | nil =>
    cases reached
    exact start
  | append_singleton ls l ih =>
    obtain ⟨u, earlier, last⟩ := run_snoc step reached
    exact preserved u l t (ih along.initial earlier) (along.last step earlier) last

theorem run_invariant (inv : State → Prop)
    (preserved : ∀ s l t, inv s → step s l = some t → inv t)
    (start : inv s) (reached : run step s ls = some t) : inv t :=
  have along : Along step (fun _ _ => True) s ls := fun _ _ _ _ _ _ => trivial
  run_invariant_along step inv (fun s l t here _ => preserved s l t here) start along reached

/-- The simulation rule: if every good step is matched by the actions of `view`, so is every run of
them. -/
theorem run_simulation_along {State' Label' : Type*} (step' : State' → Label' → Option State')
    (view : Label → List Label') (related : State → State' → Prop)
    (simulated : ∀ s a l t, related s a → good s l → step s l = some t →
      ∃ b, run step' a (view l) = some b ∧ related t b)
    {a : State'} (start : related s a) (along : Along step good s ls)
    (reached : run step s ls = some t) :
    ∃ b, run step' a (ls.flatMap view) = some b ∧ related t b := by
  induction ls using List.reverseRecOn generalizing t with
  | nil =>
    cases reached
    exact ⟨a, rfl, start⟩
  | append_singleton ls l ih =>
    obtain ⟨u, earlier, last⟩ := run_snoc step reached
    obtain ⟨c, before, here⟩ := ih along.initial earlier
    obtain ⟨b, after, there⟩ := simulated u c l t here (along.last step earlier) last
    refine ⟨b, ?_, there⟩
    rw [List.flatMap_append, List.flatMap_singleton, run_append, before]
    exact after

end Xv6.Lib.Transition
