import Mathlib.Data.List.Induction

/-! Weakest preconditions of programs that carry a state and can stop with an error. -/

namespace Xv6.Lib

variable {σ ε α β : Type}

/-- From `s` the program returns with `post`, or it stops with `stop`. -/
def wp (prog : StateT σ (Except ε) α) (post : α → σ → Prop) (stop : ε → Prop) (s : σ) : Prop :=
  match prog s with
  | .ok (value, t) => post value t
  | .error e => stop e

section Rules

variable {post : α → σ → Prop} {stop : ε → Prop} {s : σ}

theorem wp_pure {value : α} : wp (pure value) post stop s ↔ post value s := Iff.rfl

theorem wp_bind {prog : StateT σ (Except ε) β} {next : β → StateT σ (Except ε) α} :
    wp (prog >>= next) post stop s ↔ wp prog (fun value t => wp (next value) post stop t) stop s := by
  unfold wp
  rw [show (prog >>= next) s = prog s >>= fun (value, t) => next value t from rfl]
  cases prog s <;> exact Iff.rfl

theorem wp_map {prog : StateT σ (Except ε) β} {f : β → α} :
    wp (f <$> prog) post stop s ↔ wp prog (fun value t => post (f value) t) stop s := by
  rw [map_eq_pure_bind, wp_bind]
  exact Iff.rfl

theorem wp_get {stop : ε → Prop} {post : σ → σ → Prop} : wp get post stop s ↔ post s s := Iff.rfl

theorem wp_set {stop : ε → Prop} {post : PUnit → σ → Prop} {t : σ} :
    wp (set t) post stop s ↔ post ⟨⟩ t := Iff.rfl

theorem wp_modify {stop : ε → Prop} {post : PUnit → σ → Prop} {f : σ → σ} :
    wp (modify f) post stop s ↔ post ⟨⟩ (f s) := Iff.rfl

theorem wp_throw {e : ε} : wp (throw e) post stop s ↔ stop e := Iff.rfl

theorem wp_ite {cond : Prop} [Decidable cond] {yes no : StateT σ (Except ε) α} :
    wp (if cond then yes else no) post stop s ↔
      (cond → wp yes post stop s) ∧ (¬ cond → wp no post stop s) := by
  split <;> simp [*]

theorem wp_mono {prog : StateT σ (Except ε) α} {weaker : α → σ → Prop} {wider : ε → Prop}
    (here : wp prog post stop s) (posts : ∀ value t, post value t → weaker value t)
    (stops : ∀ e, stop e → wider e) : wp prog weaker wider s := by
  unfold wp at *
  split
  next taken => exact posts _ _ (by rwa [taken] at here)
  next taken => exact stops _ (by rwa [taken] at here)

theorem wp_and {prog : StateT σ (Except ε) α} {other : α → σ → Prop} {also : ε → Prop}
    (first : wp prog post stop s) (second : wp prog other also s) :
    wp prog (fun value t => post value t ∧ other value t) (fun e => stop e ∧ also e) s := by
  unfold wp at *
  split
  next taken => exact ⟨by rwa [taken] at first, by rwa [taken] at second⟩
  next taken => exact ⟨by rwa [taken] at first, by rwa [taken] at second⟩

theorem wp_seq {prog : StateT σ (Except ε) β} {next : β → StateT σ (Except ε) α}
    {middle : β → σ → Prop} {narrower : ε → Prop} (first : wp prog middle narrower s)
    (stops : ∀ e, narrower e → stop e)
    (rest : ∀ value t, middle value t → wp (next value) post stop t) :
    wp (prog >>= next) post stop s :=
  wp_bind.mpr (wp_mono first rest stops)

/-- A program that cannot stop, followed by another one. -/
theorem wp_then {prog : StateT σ (Except ε) β} {next : β → StateT σ (Except ε) α} {middle : β → σ → Prop}
    (first : wp prog middle (fun _ => False) s) (rest : ∀ value t, middle value t → wp (next value) post stop t) :
    wp (prog >>= next) post stop s :=
  wp_seq first (fun _ none => none.elim) rest

theorem wp.ok {prog : StateT σ (Except ε) α} (here : wp prog post stop s) {value : α} {t : σ}
    (ran : prog s = .ok (value, t)) : post value t := by
  rwa [wp, ran] at here

theorem wp.error {prog : StateT σ (Except ε) α} (here : wp prog post stop s) {e : ε}
    (ran : prog s = .error e) : stop e := by
  rwa [wp, ran] at here

theorem wp.returns {prog : StateT σ (Except ε) α} (here : wp prog post (fun _ => False) s) :
    ∃ value t, prog s = .ok (value, t) ∧ post value t := by
  unfold wp at here
  split at here
  next value t ran => exact ⟨value, t, ran, here⟩
  next => exact here.elim

theorem wp.stops {prog : StateT σ (Except ε) α} (here : wp prog (fun _ _ => False) stop s) :
    ∃ e, prog s = .error e ∧ stop e := by
  unfold wp at here
  split at here
  next => exact here.elim
  next e ran => exact ⟨e, ran, here⟩

theorem wp_bind_of_ok {prog : StateT σ (Except ε) β} {next : β → StateT σ (Except ε) α} {value : β} {t : σ}
    (ran : prog s = .ok (value, t)) : wp (prog >>= next) post stop s ↔ wp (next value) post stop t := by
  rw [wp_bind, wp, ran]

/-- A loop over `first, …, first + count - 1`, with the invariant it keeps at each index. -/
theorem wp_forM_range' {body : Nat → StateT σ (Except ε) PUnit} (inv : Nat → σ → Prop)
    (first count : Nat)
    (step : ∀ i, first ≤ i → i < first + count → ∀ t, inv i t →
      wp (body i) (fun _ u => inv (i + 1) u) stop t)
    (start : inv first s) :
    wp ((List.range' first count).forM body) (fun _ t => inv (first + count) t) stop s := by
  induction count generalizing first s with
  | zero => exact start
  | succ count ih =>
    rw [List.range'_succ, List.forM_eq_forM, List.forM_cons]
    refine wp_seq (step first (Nat.le_refl _) (by omega) s start) (fun _ stopped => stopped) ?_
    intro _ t here
    have rest := ih (first + 1) (fun i low high => step i (by omega) (by omega)) here
    rwa [Nat.add_right_comm] at rest

theorem wp_forM_range {body : Nat → StateT σ (Except ε) PUnit} (inv : Nat → σ → Prop) (count : Nat)
    (step : ∀ i, i < count → ∀ t, inv i t → wp (body i) (fun _ u => inv (i + 1) u) stop t)
    (start : inv 0 s) :
    wp ((List.range count).forM body) (fun _ t => inv count t) stop s := by
  have whole := wp_forM_range' inv 0 count (fun i _ high => step i (by omega)) start
  rwa [Nat.zero_add, ← List.range_eq_range'] at whole

/-- A loop over a list, with the invariant it keeps once the elements in `done` are done. -/
theorem wp_forM {ι : Type} {body : ι → StateT σ (Except ε) PUnit} (inv : List ι → σ → Prop) (list : List ι)
    (step : ∀ done i rest, list = done ++ i :: rest → ∀ t, inv done t →
      wp (body i) (fun _ u => inv (done ++ [i]) u) stop t)
    (start : inv [] s) : wp (list.forM body) (fun _ t => inv list t) stop s := by
  have each : ∀ rest done s, list = done ++ rest → inv done s → wp (rest.forM body) (fun _ t => inv list t) stop s := by
    intro rest
    induction rest with
    | nil =>
      intro done s whole here
      rw [whole, List.append_nil]
      exact here
    | cons i rest ih =>
      intro done s whole here
      rw [List.forM_eq_forM, List.forM_cons]
      refine wp_seq (step done i rest whole s here) (fun _ stopped => stopped) fun _ t there => ?_
      exact ih (done ++ [i]) t (by rw [whole, List.append_assoc]; rfl) there
  exact each list [] s rfl start

theorem wp_of_ok {prog : StateT σ (Except ε) α} {value : α} {t : σ} (ran : prog s = .ok (value, t)) :
    wp prog post stop s ↔ post value t := by
  rw [wp, ran]

theorem wp_of_error {prog : StateT σ (Except ε) α} {e : ε} (ran : prog s = .error e) : wp prog post stop s ↔ stop e := by
  rw [wp, ran]

end Rules

-- a goal about a program is not to be reduced by running it
attribute [irreducible] wp

end Xv6.Lib
