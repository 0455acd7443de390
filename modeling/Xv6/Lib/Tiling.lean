import Mathlib.Data.List.Basic

/-! Blocks that lie one behind the other and fill an interval of addresses. -/

namespace Xv6.Lib

variable {B : Type*} (addr len : B → Nat)

def Tiles : Nat → List B → Nat → Prop
  | a, [], e => a = e
  | a, b :: bs, e => addr b = a ∧ 0 < len b ∧ Tiles (a + len b) bs e

namespace Tiles

variable {addr len} {a e : Nat} {b : B} {bs cs : List B}

theorem append_iff : Tiles addr len a (bs ++ cs) e ↔ ∃ m, Tiles addr len a bs m ∧ Tiles addr len m cs e := by
  induction bs generalizing a with
  | nil =>
    constructor
    · exact fun tiles => ⟨a, rfl, tiles⟩
    · rintro ⟨m, rfl, tiles⟩
      exact tiles
  | cons b bs ih =>
    simp only [List.cons_append, Tiles, ih]
    constructor
    · rintro ⟨start, positive, m, first, second⟩
      exact ⟨m, ⟨start, positive, first⟩, second⟩
    · rintro ⟨m, ⟨start, positive, first⟩, second⟩
      exact ⟨start, positive, m, first, second⟩

theorem middle_iff : Tiles addr len a (bs ++ b :: cs) e ↔
    Tiles addr len a bs (addr b) ∧ 0 < len b ∧ Tiles addr len (addr b + len b) cs e := by
  rw [append_iff]
  constructor
  · rintro ⟨m, first, rfl, positive, second⟩
    exact ⟨first, positive, second⟩
  · rintro ⟨first, positive, second⟩
    exact ⟨addr b, first, rfl, positive, second⟩

theorem le (tiles : Tiles addr len a bs e) : a ≤ e := by
  induction bs generalizing a with
  | nil => exact Nat.le_of_eq tiles
  | cons b bs ih =>
    have rest := ih tiles.2.2
    omega

theorem inside (tiles : Tiles addr len a bs e) (member : b ∈ bs) :
    a ≤ addr b ∧ 0 < len b ∧ addr b + len b ≤ e := by
  obtain ⟨pre, post, rfl⟩ := List.append_of_mem member
  obtain ⟨first, positive, second⟩ := middle_iff.mp tiles
  exact ⟨first.le, positive, second.le⟩

theorem mul_length_le (tiles : Tiles addr len a bs e) {k : Nat} (least : ∀ b ∈ bs, k ≤ len b) :
    a + k * bs.length ≤ e := by
  induction bs generalizing a with
  | nil =>
    have : a = e := tiles
    simp [this]
  | cons b bs ih =>
    have rest := ih tiles.2.2 fun c member => least c (List.mem_cons_of_mem _ member)
    have here := least b List.mem_cons_self
    rw [List.length_cons, Nat.mul_succ]
    omega

theorem sorted (tiles : Tiles addr len a bs e) : bs.Pairwise fun b c => addr b + len b ≤ addr c := by
  induction bs generalizing a with
  | nil => exact List.Pairwise.nil
  | cons b bs ih =>
    refine List.Pairwise.cons (fun c member => ?_) (ih tiles.2.2)
    rw [tiles.1]
    exact (tiles.2.2.inside member).1

theorem adjacent {c : B} (tiles : Tiles addr len a bs e) (left : b ∈ bs) (right : c ∈ bs)
    (meets : addr b + len b = addr c) : ∃ pre post, bs = pre ++ b :: c :: post := by
  obtain ⟨pre, post, rfl⟩ := List.append_of_mem left
  obtain ⟨first, positive, second⟩ := middle_iff.mp tiles
  rcases List.mem_append.mp right with lower | rest
  · have bounds := first.inside lower
    omega
  · rcases List.mem_cons.mp rest with rfl | upper
    · omega
    · cases post with
      | nil => cases upper
      | cons d post =>
        rcases List.mem_cons.mp upper with rfl | later
        · exact ⟨pre, post, rfl⟩
        · have here := second.2.1
          have bounds := (second.2.2.inside later).1
          omega

end Tiles

end Xv6.Lib
