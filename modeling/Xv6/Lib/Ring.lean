import Mathlib.Data.List.Nodup
import Mathlib.Order.Lattice

/-! Nodes linked through `next` in a circle, and a walk along the links until a test holds. -/

namespace Xv6.Lib.Ring
open List

variable {α : Type*} {next next' : α → α}

/-- Following `next` from `x` one meets the nodes of the list and then `y`. -/
def Path (next : α → α) : α → List α → α → Prop
  | x, [], y => next x = y
  | x, z :: l, y => next x = z ∧ Path next z l y

variable {x y z : α} {l : List α}

theorem path_append {m : List α} :
    Path next x (l ++ z :: m) y ↔ Path next x l z ∧ Path next z m y := by
  induction l generalizing x with
  | nil => exact Iff.rfl
  | cons w l ih =>
    simp only [cons_append, Path, ih, and_assoc]

theorem Path.congr (path : Path next x l y) (same : ∀ z ∈ x :: l, next' z = next z) :
    Path next' x l y := by
  induction l generalizing x with
  | nil => exact (same x mem_cons_self).trans path
  | cons w l ih =>
    refine ⟨(same x mem_cons_self).trans path.1, ih path.2 fun z found => ?_⟩
    exact same z (mem_cons_of_mem _ found)

theorem Path.next_last (path : Path next x l y) : next (l.getLastD x) = y := by
  induction l generalizing x with
  | nil => exact path
  | cons w l ih =>
    rw [getLastD_cons]
    exact ih path.2

variable {b e : α}

theorem Path.tail {lo hi : List α} (path : Path next b (lo ++ hi) e) : Path next (lo.getLastD b) hi e := by
  induction lo generalizing b with
  | nil => exact path
  | cons w lo ih =>
    rw [getLastD_cons]
    exact ih path.2

theorem Path.initial {pre post : List α} (path : Path next x l y)
    (split : l ++ [y] = pre ++ z :: post) : Path next x pre z := by
  induction pre generalizing x l with
  | nil =>
    cases l with
    | nil =>
      cases split
      exact path
    | cons w l =>
      cases split
      exact path.1
  | cons v pre ih =>
    cases l with
    | nil => simp at split
    | cons w l =>
      simp only [cons_append, List.cons.injEq] at split
      obtain ⟨rfl, split⟩ := split
      exact ⟨path.1, ih path.2 split⟩

theorem Path.move {h : α} (path : Path next h l e) (start : next' x = next h)
    (same : ∀ z ∈ l, next' z = next z) : Path next' x l e := by
  cases l with
  | nil => exact start.trans path
  | cons w l => exact ⟨start.trans path.1, path.2.congr same⟩

theorem Path.relink {lo hi hi' : List α} (path : Path next b (lo ++ hi) e) (nodup : (b :: lo).Nodup)
    (same : ∀ z ∈ b :: lo, z ≠ lo.getLastD b → next' z = next z) (rest : Path next' (lo.getLastD b) hi' e) :
    Path next' b (lo ++ hi') e := by
  induction lo generalizing b with
  | nil => exact rest
  | cons w lo ih =>
    rw [getLastD_cons] at same rest
    obtain ⟨fresh, distinct⟩ := nodup_cons.mp nodup
    have inside : lo.getLastD w ∈ w :: lo := by
      rw [← getLast_eq_getLastD (cons_ne_nil w lo)]
      exact getLast_mem _
    have other : b ≠ lo.getLastD w := fun equal => fresh (equal ▸ inside)
    refine ⟨(same b mem_cons_self other).trans path.1, ih path.2 distinct ?_ rest⟩
    exact fun z member => same z (mem_cons_of_mem _ member)

theorem Path.map_next (path : Path next x l y) : (x :: l).map next = l ++ [y] := by
  induction l generalizing x with
  | nil => exact congrArg (· :: []) path
  | cons w l ih =>
    rw [map_cons, path.1, ih path.2]
    rfl

theorem Path.next_injOn (path : Path next x l x) (nodup : (x :: l).Nodup)
    (left : y ∈ x :: l) (right : z ∈ x :: l) (same : next y = next z) : y = z := by
  have images : ((x :: l).map next).Nodup := by
    rw [path.map_next]
    exact nodup_append_comm.mp nodup
  exact inj_on_of_nodup_map images left right same

theorem Path.suffix {pre post : List α} (path : Path next b l b) (split : b :: l = pre ++ z :: post) :
    Path next z post b := by
  cases pre with
  | nil =>
    cases split
    exact path
  | cons w pre =>
    cases split
    exact (path_append.mp path).2

theorem Path.rotate (path : Path next x l x) (member : z ∈ x :: l) :
    ∃ m, Path next z m z ∧ (z :: m).Perm (x :: l) := by
  rcases mem_cons.mp member with rfl | inside
  · exact ⟨l, path, List.Perm.refl _⟩
  · obtain ⟨before, after, rfl⟩ := append_of_mem inside
    obtain ⟨first, second⟩ := path_append.mp path
    refine ⟨after ++ x :: before, path_append.mpr ⟨second, first⟩, ?_⟩
    have swapped : (z :: after ++ x :: before).Perm (x :: before ++ z :: after) := perm_append_comm
    exact swapped

section Walk
variable (next) (test : α → Prop) [DecidablePred test]

/-- The first node from `x` on where the test holds. -/
def walk : Nat → α → Option α
  | 0, _ => none
  | fuel + 1, x => if test x then some x else walk fuel (next x)

variable {next} {test}

theorem walk_path {x y : α} {l : List α} (path : Path next x l y) (fails : ∀ z ∈ x :: l, ¬ test z) (fuel : Nat) :
    walk next test (fuel + (x :: l).length) x = walk next test fuel y := by
  induction l generalizing x with
  | nil =>
    change walk next test (fuel + 1) x = _
    rw [walk, if_neg (fails x mem_cons_self), path]
  | cons w l ih =>
    change walk next test (fuel + (w :: l).length + 1) x = _
    rw [walk, if_neg (fails x mem_cons_self), path.1]
    exact ih path.2 fun z found => fails z (mem_cons_of_mem _ found)

/-- A walk around a circle finds the one node where the test holds. -/
theorem walk_ring {x y z : α} {l : List α} (path : Path next x l x) (nodup : (x :: l).Nodup)
    (start : z ∈ x :: l) (target : y ∈ x :: l) (only : ∀ w ∈ x :: l, test w ↔ w = y) {fuel : Nat}
    (enough : (x :: l).length ≤ fuel) : walk next test fuel z = some y := by
  obtain ⟨m, around, same⟩ := path.rotate start
  have found : y ∈ z :: m := same.mem_iff.mpr target
  have size : (z :: m).length = (x :: l).length := same.length_eq
  have holds : test y := (only y target).mpr rfl
  rcases mem_cons.mp found with rfl | inside
  · obtain ⟨more, rfl⟩ : ∃ more, fuel = more + 1 := ⟨fuel - 1, by simp at enough; omega⟩
    rw [walk, if_pos holds]
  · obtain ⟨before, after, rfl⟩ := append_of_mem inside
    obtain ⟨first, -⟩ := path_append.mp around
    have distinct : (z :: (before ++ y :: after)).Nodup := same.nodup_iff.mpr nodup
    have fails : ∀ w ∈ z :: before, ¬ test w := by
      intro w member yes
      have inRing : w ∈ x :: l := same.mem_iff.mp (mem_append_left (y :: after) member)
      have here : w = y := (only w inRing).mp yes
      have apart := disjoint_of_nodup_append (show (z :: before ++ y :: after).Nodup from distinct)
      exact apart member (here ▸ mem_cons_self)
    obtain ⟨more, rfl⟩ : ∃ more, fuel = more + 1 + (z :: before).length := by
      refine ⟨fuel - 1 - (z :: before).length, ?_⟩
      simp only [length_cons, length_append] at enough size ⊢
      omega
    rw [walk_path first fails, walk, if_pos holds]

end Walk

section Sorted
variable {β : Type*} [LinearOrder β] {next : β → β}

/-- A new element goes behind `p`, or where the circle wraps. -/
def Fits (next : β → β) (x p : β) : Prop := (p < x ∧ x < next p) ∨ (next p ≤ p ∧ (p < x ∨ x < next p))

instance (x p : β) : Decidable (Fits next x p) := inferInstanceAs (Decidable (_ ∨ _))

theorem next_cases {b z : β} {l pre post : List β} (path : Path next b l b) (sorted : (b :: l).Pairwise (· < ·))
    (split : b :: l = pre ++ z :: post) :
    (post = [] ∧ next z = b) ∨ ∃ h rest, post = h :: rest ∧ next z = h ∧ z < h := by
  have rest := path.suffix split
  cases post with
  | nil => exact .inl ⟨rfl, rest⟩
  | cons h post =>
    rw [split] at sorted
    have tail := (pairwise_append.mp sorted).2.1
    exact .inr ⟨h, post, rfl, rest.1, rel_of_pairwise_cons tail mem_cons_self⟩

theorem fits_iff {b x z : β} {lo hi : List β} (path : Path next b (lo ++ hi) b)
    (sorted : (b :: (lo ++ hi)).Pairwise (· < ·)) (below : ∀ w ∈ b :: lo, w < x) (above : ∀ w ∈ hi, x < w)
    (member : z ∈ b :: (lo ++ hi)) : Fits next x z ↔ z = lo.getLastD b := by
  obtain ⟨front, split⟩ : ∃ front, b :: lo = front ++ [lo.getLastD b] := by
    refine ⟨(b :: lo).dropLast, ?_⟩
    rw [← getLast_eq_getLastD (cons_ne_nil b lo), dropLast_concat_getLast]
  generalize lo.getLastD b = p at split ⊢
  have ring : b :: (lo ++ hi) = front ++ p :: hi := by
    rw [← cons_append, split, append_assoc]
    rfl
  have smaller : ∀ w ∈ front ++ [p], w < x := split ▸ below
  have first : b < x := below b mem_cons_self
  have last : p < x := smaller p (mem_append_right _ (mem_singleton_self p))
  rw [ring, mem_append, mem_cons] at member
  unfold Fits
  rcases member with early | rfl | late
  · -- an earlier node: the next one is still smaller than the new element
    obtain ⟨pre, mid, rfl⟩ := append_of_mem early
    have there : b :: (lo ++ hi) = pre ++ z :: (mid ++ p :: hi) := by rw [ring]; simp
    have apart : z ≠ p := by
      rw [ring] at sorted
      have order := (pairwise_append.mp sorted).2.2 z early p mem_cons_self
      exact ne_of_lt order
    obtain ⟨none, -⟩ | ⟨h, rest, following, next_z, larger⟩ := next_cases path sorted there
    · simp at none
    · have still : h < x := by
        apply smaller
        cases mid with
        | nil =>
          cases following
          simp
        | cons w mid =>
          cases following
          simp
      simp only [next_z, apart, iff_false, not_or, not_and, not_lt]
      exact ⟨fun _ => still.le, fun back => absurd larger (not_lt.mpr back)⟩
  · simp only [iff_true]
    obtain ⟨rfl, wraps⟩ | ⟨h, rest, rfl, next_z, -⟩ := next_cases path sorted ring
    · right
      rw [wraps]
      refine ⟨?_, .inl last⟩
      have inside : b ∈ front ++ [z] := split ▸ mem_cons_self
      rcases mem_append.mp inside with early | here
      · rw [ring] at sorted
        exact ((pairwise_append.mp sorted).2.2 b early z mem_cons_self).le
      · exact (mem_singleton.mp here).le
    · left
      rw [next_z]
      exact ⟨last, above h mem_cons_self⟩
  · have beyond := above z late
    have apart : z ≠ p := fun same => absurd (same ▸ beyond) (not_lt.mpr last.le)
    obtain ⟨pre, post, rfl⟩ := append_of_mem late
    have there : b :: (lo ++ (pre ++ z :: post)) = (front ++ p :: pre) ++ z :: post := by rw [ring]; simp
    simp only [apart, iff_false, not_or, not_and, not_lt]
    refine ⟨fun small => absurd small (not_lt.mpr beyond.le), fun back => ⟨beyond.le, ?_⟩⟩
    obtain ⟨-, wraps⟩ | ⟨h, rest, -, next_z, larger⟩ := next_cases path sorted there
    · rw [wraps]
      exact first.le
    · rw [next_z] at back
      exact absurd larger (not_lt.mpr back)

end Sorted

end Xv6.Lib.Ring
