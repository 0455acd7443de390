import Xv6.Lib.Tiling
import Xv6.Umalloc.Model
import Mathlib.Data.List.Chain

/-! The heap as a row of blocks, free or in use; the free list runs through the free ones in the
order of their addresses. `free` and `malloc` keep this shape. -/

namespace Xv6.Umalloc
open Lib Ring Function List

structure Block where
  addr : Nat
  size : Nat
  free : Bool
  deriving DecidableEq

def Block.len (b : Block) : Nat := 8 * b.size

def frees (bs : List Block) : List Nat := (bs.filter (·.free)).map (·.addr)

def used (bs : List Block) : List Block := bs.filter fun b => !b.free

section Lists
variable (bs cs : List Block) (addr size : Nat)

@[simp] theorem frees_nil : frees [] = [] := rfl

@[simp] theorem frees_append : frees (bs ++ cs) = frees bs ++ frees cs := by simp [frees]

@[simp] theorem frees_cons_free : frees (⟨addr, size, true⟩ :: bs) = addr :: frees bs := rfl

@[simp] theorem frees_cons_used : frees (⟨addr, size, false⟩ :: bs) = frees bs := rfl

@[simp] theorem used_nil : used [] = [] := rfl

@[simp] theorem used_append : used (bs ++ cs) = used bs ++ used cs := by simp [used]

@[simp] theorem used_cons_free : used (⟨addr, size, true⟩ :: bs) = used bs := rfl

@[simp] theorem used_cons_used : used (⟨addr, size, false⟩ :: bs) = ⟨addr, size, false⟩ :: used bs := rfl

theorem mem_frees {bs : List Block} {x : Nat} : x ∈ frees bs ↔ ∃ b ∈ bs, b.free = true ∧ b.addr = x := by
  simp [frees, and_assoc]

theorem frees_length : (frees bs).length ≤ bs.length := by
  rw [frees, length_map]
  exact length_filter_le _ _

end Lists

/-- The blocks as the headers in memory describe them. -/
structure Shaped (base start : Nat) (s : State) (bs : List Block) : Prop where
  static : 0 < base
  above : base + 8 ≤ start
  high : s.brk < 2 ^ 32
  tiles : Tiles Block.addr Block.len start bs s.brk
  sizes : ∀ b ∈ bs, (s.mem b.addr).size = b.size
  baseSize : (s.mem base).size = 0
  ring : Path (next s.mem) base (frees bs) base
  freep : s.freep ∈ base :: frees bs
  apart : bs.IsChain fun b c => ¬ (b.free = true ∧ c.free = true)

namespace Shaped

variable {base start : Nat} {s : State} {bs pre post : List Block} {b : Block}

section

variable (shaped : Shaped base start s bs)
include shaped

theorem inside (member : b ∈ bs) :
    start ≤ b.addr ∧ 0 < b.size ∧ b.addr + 8 * b.size ≤ s.brk := by
  obtain ⟨low, positive, high⟩ := shaped.tiles.inside member
  unfold Block.len at positive high
  exact ⟨low, by omega, high⟩

theorem plus_eq (member : b ∈ bs) {n : Nat} (within : n ≤ b.size) :
    plus b.addr n = b.addr + 8 * n := by
  have bounds := shaped.inside member
  have high := shaped.high
  exact Nat.mod_eq_of_lt (by omega)

theorem frees_sorted : (base :: frees bs).Pairwise (· < ·) := by
  have above := shaped.above
  refine List.Pairwise.cons (fun x found => ?_) ?_
  · obtain ⟨b, member, -, rfl⟩ := mem_frees.mp found
    have := (shaped.inside member).1
    omega
  · have order : (bs.filter (·.free)).Pairwise fun b c => b.addr + b.len ≤ c.addr :=
      List.Pairwise.sublist filter_sublist shaped.tiles.sorted
    refine pairwise_map.mpr (List.Pairwise.imp_of_mem (fun {b c} first _ before => ?_) order)
    have := (shaped.inside (mem_filter.mp first).1).2.1
    unfold Block.len at before
    omega

theorem nodup : (base :: frees bs).Nodup :=
  List.Pairwise.imp (fun before => Nat.ne_of_lt before) shaped.frees_sorted

theorem length_le : start + 8 * bs.length ≤ s.brk := by
  apply shaped.tiles.mul_length_le
  intro b member
  have := (shaped.inside member).2.1
  unfold Block.len
  omega

end

section Middle
variable {x sz : Nat} {state : Bool}

section

variable (shaped : Shaped base start s (pre ++ ⟨x, sz, state⟩ :: post))
include shaped

theorem around :
    Tiles Block.addr Block.len start pre x ∧ 0 < sz ∧ Tiles Block.addr Block.len (x + 8 * sz) post s.brk := by
  obtain ⟨lower, positive, upper⟩ := Tiles.middle_iff.mp shaped.tiles
  unfold Block.len at positive
  exact ⟨lower, by dsimp only at positive; omega, upper⟩

theorem lower_lt {w : Nat}
    (found : w ∈ base :: frees pre) : w < x := by
  have above := shaped.above
  have low := shaped.around.1.le
  rcases mem_cons.mp found with rfl | found
  · omega
  · obtain ⟨b, member, -, rfl⟩ := mem_frees.mp found
    obtain ⟨-, positive, end_le⟩ := shaped.around.1.inside member
    omega

theorem lt_upper {w : Nat}
    (found : w ∈ frees post) : x + 8 * sz ≤ w := by
  obtain ⟨b, member, -, rfl⟩ := mem_frees.mp found
  exact (shaped.around.2.2.inside member).1

theorem addr_lt (member : b ∈ pre) : b.addr < x := by
  obtain ⟨-, positive, end_le⟩ := shaped.around.1.inside member
  omega

theorem end_le (member : b ∈ post) :
    x + 8 * sz ≤ b.addr := (shaped.around.2.2.inside member).1

end

def before (base : Nat) (pre : List Block) : Nat := (frees pre).getLastD base

theorem before_mem (base : Nat) (pre : List Block) : before base pre ∈ base :: frees pre := by
  rw [before, ← getLast_eq_getLastD (cons_ne_nil base (frees pre))]
  exact getLast_mem _

variable (shaped : Shaped base start s (pre ++ ⟨x, sz, false⟩ :: post))
include shaped

theorem ring_around : Path (next s.mem) base (frees pre ++ frees post) base := by
  have ring := shaped.ring
  rw [frees_append, frees_cons_used] at ring
  exact ring

theorem ring_behind : Path (next s.mem) (before base pre) (frees post) base := shaped.ring_around.tail

theorem relink {mem : Nat → Header} {rest : List Nat}
    (same : ∀ z ∈ base :: frees pre, z ≠ before base pre → next mem z = next s.mem z)
    (path : Path (next mem) (before base pre) rest base) : Path (next mem) base (frees pre ++ rest) base := by
  have nodup := shaped.nodup
  rw [frees_append, ← cons_append] at nodup
  exact shaped.ring_around.relink (nodup_append.mp nodup).1 same path

theorem walk_eq {fuel : Nat} (enough : pre.length + post.length < fuel) :
    walk (next s.mem) (Fits (next s.mem) x) fuel s.freep = some (before base pre) := by
  have sorted := shaped.frees_sorted
  have nodup := shaped.nodup
  have freep := shaped.freep
  rw [frees_append, frees_cons_used] at sorted nodup freep
  have size : (base :: (frees pre ++ frees post)).length ≤ fuel := by
    have left := frees_length pre
    have right := frees_length post
    simp only [length_cons, length_append]
    omega
  have target : before base pre ∈ base :: (frees pre ++ frees post) := by
    rw [← cons_append]
    exact mem_append_left _ (before_mem base pre)
  have only : ∀ w ∈ base :: (frees pre ++ frees post), Fits (next s.mem) x w ↔ w = before base pre := by
    intro w member
    apply fits_iff shaped.ring_around sorted (fun w found => shaped.lower_lt found) _ member
    intro w found
    have := shaped.lt_upper found
    have := shaped.around.2.1
    omega
  exact walk_ring shaped.ring_around nodup freep target only size

structure JoinedUpper (x sz : Nat) (post : List Block) (base brk : Nat) (old mem : Nat → Header) (sz' : Nat)
    (post' : List Block) : Prop where
  grown : sz ≤ sz'
  size : (mem x).size = sz'
  frame : ∀ z, z ≠ x → mem z = old z
  suffix : post' <:+ post
  used : used post' = used post
  tiles : Tiles Block.addr Block.len (x + 8 * sz') post' brk
  upper : ∀ c ∈ post'.head?, c.free = false
  path : Path (next mem) x (frees post') base

theorem size_eq : (s.mem x).size = sz := shaped.sizes ⟨x, sz, false⟩ (by simp)

theorem plus_end : plus x sz = x + 8 * sz :=
  shaped.plus_eq (b := ⟨x, sz, false⟩) (by simp) (Nat.le_refl sz)

theorem joinUpper_linked (no : plus x (s.mem x).size ≠ (s.mem (before base pre)).ptr)
    (upper : ∀ c ∈ post.head?, c.free = false) :
    JoinedUpper x sz post base s.brk s.mem (joinUpper s.mem x (before base pre)) sz post := by
  have behind := shaped.ring_behind
  have positive := shaped.around.2.1
  rw [joinUpper, if_neg no]
  refine ⟨Nat.le_refl _, ?_, fun z other => ?_, suffix_rfl, rfl, shaped.around.2.2, upper, ?_⟩
  · rw [size_setPtr]
    exact shaped.size_eq
  · exact update_of_ne other _ _
  · apply behind.move
    · rw [next_setPtr, if_pos rfl]
      rfl
    · intro z found
      have := shaped.lt_upper found
      rw [next_setPtr, if_neg (by omega)]

theorem joinUpper_spec : ∃ sz' post',
    JoinedUpper x sz post base s.brk s.mem (joinUpper s.mem x (before base pre)) sz' post' := by
  have behind := shaped.ring_behind
  have around := shaped.around
  have above := shaped.above
  have low := around.1.le
  cases post with
  | nil =>
    refine ⟨sz, [], shaped.joinUpper_linked ?_ nofun⟩
    have wraps : (s.mem (before base pre)).ptr = base := behind
    rw [shaped.size_eq, shaped.plus_end, wraps]
    omega
  | cons c post =>
    obtain ⟨y, size, state⟩ := c
    have starts : y = x + 8 * sz := around.2.2.1
    cases state with
    | false =>
      refine ⟨sz, _, shaped.joinUpper_linked ?_ fun c here => by cases here; rfl⟩
      rw [shaped.size_eq, shaped.plus_end]
      -- the next free block, if any, is further up
      have far : ∀ w ∈ frees post, x + 8 * sz < w := by
        intro w found
        obtain ⟨b, member, -, rfl⟩ := mem_frees.mp found
        have positive := around.2.2.2.1
        have start_le := (around.2.2.2.2.inside member).1
        omega
      rw [frees_cons_used] at behind
      cases rest : frees post with
      | nil =>
        rw [rest] at behind
        rw [show (s.mem (before base pre)).ptr = base from behind]
        omega
      | cons w more =>
        rw [rest] at behind
        rw [show (s.mem (before base pre)).ptr = w from behind.1]
        have := far w (by rw [rest]; exact mem_cons_self)
        omega
    | true =>
      rw [frees_cons_free] at behind
      have meets : plus x (s.mem x).size = (s.mem (before base pre)).ptr := by
        rw [shaped.size_eq, shaped.plus_end, ← starts]
        exact behind.1.symm
      have upperSize : (s.mem y).size = size := shaped.sizes ⟨y, size, true⟩ (by simp)
      have total : (sz + size) % 2 ^ 32 = sz + size := by
        have bounds := shaped.inside (b := ⟨y, size, true⟩) (by simp)
        have high := shaped.high
        exact Nat.mod_eq_of_lt (by dsimp only at bounds; omega)
      refine ⟨sz + size, post, Nat.le_add_right _ _, ?_, fun z other => ?_, ⟨[⟨y, size, true⟩], rfl⟩, rfl, ?_, ?_, ?_⟩
      · rw [joinUpper, if_pos meets, update_self, show (s.mem (before base pre)).ptr = y from behind.1,
          upperSize, shaped.size_eq, total]
      · rw [joinUpper, if_pos meets, update_of_ne other]
      · have rest := around.2.2.2.2
        rw [show x + 8 * (sz + size) = x + 8 * sz + Block.len ⟨y, size, true⟩ by
          change _ = x + 8 * sz + 8 * size
          omega]
        exact rest
      · intro c here
        have chain := (isChain_append.mp shaped.apart).2.1
        cases post with
        | nil => cases here
        | cons d post =>
          cases here
          have pair := (isChain_cons_cons.mp (isChain_cons_cons.mp chain).2).1
          cases state : c.free with
          | false => rfl
          | true => exact absurd ⟨rfl, state⟩ pair
      · apply behind.2.move
        · rw [next, joinUpper, if_pos meets, update_self,
            show (s.mem (before base pre)).ptr = y from behind.1]
          rfl
        · intro z found
          have up := shaped.lt_upper (w := z) (by rw [frees_cons_free]; exact mem_cons_of_mem _ found)
          have positive := around.2.1
          rw [next, joinUpper, if_pos meets, update_of_ne (by omega)]
          rfl

section Lower
variable {mem : Nat → Header} {sz' : Nat} {post' : List Block}
  (joined : JoinedUpper x sz post base s.brk s.mem mem sz' post')
include joined

theorem size_kept (member : b ∈ pre ∨ b ∈ post') : (mem b.addr).size = b.size := by
  rcases member with lower | upper
  · rw [joined.frame _ (Nat.ne_of_lt (shaped.addr_lt lower))]
    exact shaped.sizes b (mem_append_left _ lower)
  · have old := joined.suffix.subset upper
    have positive := shaped.around.2.1
    have up := shaped.end_le old
    rw [joined.frame _ (by omega)]
    exact shaped.sizes b (mem_append_right _ (mem_cons_of_mem _ old))

theorem post_lt {w : Nat} (found : w ∈ frees post') : x < w := by
  obtain ⟨b, member, -, rfl⟩ := mem_frees.mp found
  have positive := shaped.around.2.1
  have up := shaped.end_le (joined.suffix.subset member)
  omega

section

variable (lower : ∀ b ∈ pre.getLast?, b.free = false)
include lower

theorem before_ends :
    plus (before base pre) (mem (before base pre)).size ≠ x := by
  have low := shaped.around.1.le
  have above := shaped.above
  apply Nat.ne_of_lt
  rcases mem_cons.mp (before_mem base pre) with here | found
  · rw [here, joined.frame base (by omega), shaped.baseSize]
    have := Nat.mod_le base (2 ^ 32)
    unfold plus
    omega
  · obtain ⟨b, member, free, here⟩ := mem_frees.mp found
    rw [← here, shaped.size_kept joined (.inl member),
      shaped.plus_eq (mem_append_left _ member) (Nat.le_refl _)]
    obtain ⟨first, second, rfl⟩ := append_of_mem member
    obtain ⟨-, -, rest⟩ := Tiles.middle_iff.mp shaped.around.1
    cases second with
    | nil =>
      have last := lower b (by simp)
      rw [free] at last
      cases last
    | cons c second =>
      have end_le := rest.2.2.le
      have positive := rest.2.1
      unfold Block.len at positive end_le
      omega

theorem joinLower_linked :
    Shaped base start { s with mem := joinLower mem x (before base pre), freep := before base pre }
      (pre ++ ⟨x, sz', true⟩ :: post') := by
  have p_lt : before base pre < x := shaped.lower_lt (before_mem base pre)
  have low := shaped.around.1.le
  have above := shaped.above
  rw [joinLower, if_neg (shaped.before_ends joined lower)]
  refine ⟨shaped.static, shaped.above, shaped.high, ?_, fun b member => ?_, ?_, ?_, ?_, ?_⟩
  · refine Tiles.middle_iff.mpr ⟨shaped.around.1, ?_, joined.tiles⟩
    have grown := joined.grown
    have positive := shaped.around.2.1
    change 0 < 8 * sz'
    omega
  · dsimp only
    rw [size_setPtr]
    rcases mem_append.mp member with first | rest
    · exact shaped.size_kept joined (.inl first)
    · rcases mem_cons.mp rest with rfl | second
      · exact joined.size
      · exact shaped.size_kept joined (.inr second)
  · dsimp only
    rw [size_setPtr, joined.frame _ (by omega)]
    exact shaped.baseSize
  · rw [frees_append, frees_cons_free]
    apply shaped.relink
    · intro z found other
      have z_lt := shaped.lower_lt found
      rw [next_setPtr, if_neg other]
      unfold next
      rw [joined.frame z (Nat.ne_of_lt z_lt)]
    · refine ⟨by rw [next_setPtr]; exact if_pos rfl, joined.path.congr fun z found => ?_⟩
      rw [next_setPtr, if_neg]
      rcases mem_cons.mp found with rfl | upper
      · exact Nat.ne_of_gt p_lt
      · exact Nat.ne_of_gt (Nat.lt_trans p_lt (shaped.post_lt joined upper))
  · rw [frees_append, ← cons_append]
    exact mem_append_left _ (before_mem base pre)
  · have chains := isChain_append.mp shaped.apart
    refine isChain_append.mpr ⟨chains.1, ?_, fun b last c first both => ?_⟩
    · refine isChain_cons.mpr ⟨fun c first both => ?_, ?_⟩
      · rw [joined.upper c first] at both
        exact absurd both.2 Bool.false_ne_true
      · exact (isChain_cons.mp chains.2.1).2.suffix joined.suffix
    · rw [lower b last] at both
      exact absurd both.1 Bool.false_ne_true

end

end Lower

theorem joinLower_joined {front : List Block} {w a : Nat} (split : pre = front ++ [⟨w, a, true⟩])
    {mem : Nat → Header} {sz' : Nat} {post' : List Block}
    (joined : JoinedUpper x sz post base s.brk s.mem mem sz' post') :
    Shaped base start { s with mem := joinLower mem x (before base pre), freep := before base pre }
      (front ++ ⟨w, a + sz', true⟩ :: post') := by
  have last : before base pre = w := by simp [before, split]
  have member : ⟨w, a, true⟩ ∈ pre := by simp [split]
  have w_lt : w < x := shaped.addr_lt member
  have size : (mem w).size = a := shaped.size_kept joined (.inl member)
  have low := shaped.around.1.le
  have above := shaped.above
  have chains := isChain_append.mp shaped.apart
  obtain ⟨lower, -, ends⟩ : Tiles Block.addr Block.len start front w ∧ _ ∧ w + 8 * a = x := by
    have tiles := shaped.around.1
    rw [split] at tiles
    exact Tiles.middle_iff.mp tiles
  have start_le := lower.le
  have meets : plus (before base pre) (mem (before base pre)).size = x := by
    rw [last, size, ← ends]
    exact shaped.plus_eq (b := ⟨w, a, true⟩) (mem_append_left _ member) (Nat.le_refl a)
  have total : (a + sz') % 2 ^ 32 = a + sz' := by
    have end_le := joined.tiles.le
    have high := shaped.high
    exact Nat.mod_eq_of_lt (by omega)
  rw [joinLower, if_pos meets, last, size, joined.size, total]
  refine ⟨shaped.static, shaped.above, shaped.high, ?_, fun b inside => ?_, ?_, ?_, ?_, ?_⟩
  · refine Tiles.middle_iff.mpr ⟨lower, ?_, ?_⟩
    · have grown := joined.grown
      have positive := shaped.around.2.1
      change 0 < 8 * (a + sz')
      omega
    · rw [show w + Block.len ⟨w, a + sz', true⟩ = x + 8 * sz' by
        change w + 8 * (a + sz') = _
        omega]
      exact joined.tiles
  · dsimp only
    rcases mem_append.mp inside with first | rest
    · have b_lt := (lower.inside first)
      rw [update_of_ne (by omega)]
      exact shaped.size_kept joined (.inl (by rw [split]; exact mem_append_left _ first))
    · rcases mem_cons.mp rest with rfl | second
      · rw [update_self]
      · have up := shaped.end_le (joined.suffix.subset second)
        rw [update_of_ne (by omega)]
        exact shaped.size_kept joined (.inr second)
  · dsimp only
    rw [update_of_ne (by omega), joined.frame _ (by omega)]
    exact shaped.baseSize
  · have nodes : frees (front ++ ⟨w, a + sz', true⟩ :: post') = frees pre ++ frees post' := by simp [split]
    rw [nodes]
    apply shaped.relink
    · intro z found other
      rw [last] at other
      have z_lt := shaped.lower_lt found
      rw [next_update, if_neg other]
      unfold next
      rw [joined.frame z (Nat.ne_of_lt z_lt)]
    · rw [last]
      apply joined.path.move
      · rw [next_update, if_pos rfl]
        rfl
      · intro z found
        have up := shaped.post_lt joined found
        rw [next_update, if_neg (by omega)]
  · simp
  · have lowers := chains.1
    rw [split] at lowers
    refine isChain_append.mpr ⟨(isChain_append.mp lowers).1, ?_, fun b ends c first both => ?_⟩
    · refine isChain_cons.mpr ⟨fun c first both => ?_, ?_⟩
      · rw [joined.upper c first] at both
        exact absurd both.2 Bool.false_ne_true
      · exact (isChain_cons.mp chains.2.1).2.suffix joined.suffix
    · cases first
      exact (isChain_append.mp lowers).2.2 b ends _ rfl ⟨both.1, rfl⟩

theorem free_spec {fuel : Nat} (enough : pre.length + post.length < fuel) :
    ∃ t bs', free fuel s (x + 8) = some t ∧ Shaped base start t bs' ∧ used bs' = used pre ++ used post ∧
      t.live = s.live ∧ t.brk = s.brk ∧ bs'.length ≤ pre.length + post.length + 1 ∧
      ∃ b ∈ bs', b.free = true ∧ sz ≤ b.size := by
  obtain ⟨sz', post', joined⟩ := shaped.joinUpper_spec
  have found : free fuel s (x + 8) = some { s with
      mem := joinLower (joinUpper s.mem x (before base pre)) x (before base pre), freep := before base pre } := by
    rw [free, Nat.add_sub_cancel, shaped.walk_eq enough]
    rfl
  have shorter : post'.length ≤ post.length := joined.suffix.length_le
  have grown := joined.grown
  by_cases free : ∃ front w a, pre = front ++ [⟨w, a, true⟩]
  · obtain ⟨front, w, a, split⟩ := free
    refine ⟨_, _, found, shaped.joinLower_joined split joined, ?_, rfl, rfl, ?_, ⟨w, a + sz', true⟩, by simp, rfl, ?_⟩
    · rw [used_append, used_cons_free, joined.used, split]
      simp
    · rw [split]
      simp only [length_append, length_cons]
      omega
    · dsimp only
      omega
  · have lower : ∀ b ∈ pre.getLast?, b.free = false := by
      intro b last
      cases state : b.free with
      | false => rfl
      | true =>
        obtain ⟨front, rfl⟩ := List.getLast?_eq_some_iff.mp last
        exact absurd ⟨front, b.addr, b.size, by rw [← state]⟩ free
    refine ⟨_, _, found, shaped.joinLower_linked joined lower, ?_, rfl, rfl, ?_, ⟨x, sz', true⟩, by simp, rfl, grown⟩
    · rw [used_append, used_cons_free, joined.used]
    · simp only [length_append, length_cons]
      omega

end Middle

end Shaped

end Xv6.Umalloc
