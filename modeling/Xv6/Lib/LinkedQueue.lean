import Mathlib.Logic.Function.Basic
import Mathlib.Data.List.Nodup

/-! A queue of nodes linked through a `next` field. A new node goes behind the last one. -/

namespace Xv6.Lib
open Function

structure LinkedQueue (K : Type*) where
  head : Option K
  next : K → Option K

namespace LinkedQueue

variable {K : Type*}

/-- From the pointer `p` the links `next` lead through exactly these nodes. -/
def Chain (next : K → Option K) : Option K → List K → Prop
  | p, [] => p = none
  | p, k :: ks => p = some k ∧ Chain next (next k) ks

def Holds (q : LinkedQueue K) (ks : List K) : Prop := Chain q.next q.head ks

/-- The pointer stored in a place: the head, or the link of a node. -/
def deref (q : LinkedQueue K) : Option K → Option K
  | none => q.head
  | some k => q.next k

variable [DecidableEq K]

def store (q : LinkedQueue K) (place p : Option K) : LinkedQueue K :=
  match place with
  | none => { q with head := p }
  | some k => { q with next := Function.update q.next k p }

def findEnd (q : LinkedQueue K) : Nat → Option K → Option (Option K)
  | 0, _ => none
  | fuel + 1, place =>
    match q.deref place with
    | none => some place
    | some k => findEnd q fuel (some k)

def append (q : LinkedQueue K) (fuel : Nat) (k : K) : Option (LinkedQueue K) :=
  let q := q.store (some k) none
  (q.findEnd fuel none).map fun place => q.store place (some k)

theorem Chain.update {next : K → Option K} {p : Option K} {ks : List K} (chain : Chain next p ks)
    {k : K} (apart : k ∉ ks) (q : Option K) : Chain (Function.update next k q) p ks := by
  induction ks generalizing p with
  | nil => exact chain
  | cons j js ih =>
    simp only [List.mem_cons, not_or] at apart
    refine ⟨chain.1, ?_⟩
    rw [update_of_ne (Ne.symm apart.1)]
    exact ih chain.2 apart.2

theorem Chain.concat {next : K → Option K} {p : Option K} {ks : List K} {last k : K}
    (chain : Chain next p (ks ++ [last])) (once : last ∉ ks) (apart : k ≠ last) (ended : next k = none) :
    Chain (Function.update next last (some k)) p (ks ++ [last] ++ [k]) := by
  induction ks generalizing p with
  | nil =>
    refine ⟨chain.1, update_self _ _ _, ?_⟩
    rw [update_of_ne apart]
    exact ended
  | cons j js ih =>
    simp only [List.mem_cons, not_or] at once
    refine ⟨chain.1, ?_⟩
    rw [update_of_ne (Ne.symm once.1)]
    exact ih chain.2 once.2

omit [DecidableEq K] in
theorem findEnd_of_chain {q : LinkedQueue K} {ks : List K} {place : Option K} {fuel : Nat}
    (chain : Chain q.next (q.deref place) ks) (enough : ks.length < fuel) :
    q.findEnd fuel place = some ((ks.getLast?).or place) := by
  induction ks generalizing place fuel with
  | nil =>
    obtain ⟨fuel, rfl⟩ : ∃ n, fuel = n + 1 := ⟨fuel - 1, by simp at enough; omega⟩
    rw [findEnd, show q.deref place = none from chain]
    rfl
  | cons k ks ih =>
    obtain ⟨fuel, rfl⟩ : ∃ n, fuel = n + 1 := ⟨fuel - 1, by simp at enough; omega⟩
    rw [findEnd, chain.1]
    simp only [List.length_cons, Nat.add_lt_add_iff_right] at enough
    have later : q.findEnd fuel (some k) = some (ks.getLast?.or (some k)) := ih chain.2 enough
    apply later.trans
    cases ks with
    | nil => rfl
    | cons j js => rw [List.getLast?_cons_cons, List.getLast?_cons]; rfl

theorem Holds.append {q : LinkedQueue K} {ks : List K} (holds : q.Holds ks) (nodup : ks.Nodup) {k : K}
    (fresh : k ∉ ks) {fuel : Nat} (enough : ks.length < fuel) :
    ∃ q', q.append fuel k = some q' ∧ q'.Holds (ks ++ [k]) := by
  have chain : Chain (update q.next k none) q.head ks := Chain.update holds fresh none
  have found : (q.store (some k) none).findEnd fuel none = some (ks.getLast?.or none) :=
    findEnd_of_chain chain enough
  rw [LinkedQueue.append, found]
  refine ⟨_, rfl, ?_⟩
  have ended : update q.next k none k = none := update_self _ _ _
  rcases List.eq_nil_or_concat' ks with rfl | ⟨front, last, rfl⟩
  · exact ⟨rfl, ended⟩
  · rw [List.getLast?_append, List.getLast?_singleton]
    simp only [List.mem_append, List.mem_singleton, not_or] at fresh
    have once : last ∉ front := fun found =>
      (List.disjoint_of_nodup_append nodup) found (List.mem_singleton_self last)
    exact Chain.concat chain once fresh.2 ended

end LinkedQueue

end Xv6.Lib
