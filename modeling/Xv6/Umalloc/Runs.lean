import Xv6.Umalloc.Allocate

/-! The heap in every run of `malloc` and `free`. -/

namespace Xv6.Umalloc
open Lib Ring List
open Block (addr)
open Transition (run along_of_mem)

variable {base start : Nat} {s t : State} {bs : List Block}

variable {b : Block}

namespace Shaped

theorem touch (shaped : Shaped base start s bs) {mem : Nat → Header}
    (same : ∀ z ∈ base :: bs.map addr, mem z = s.mem z) : Shaped base start { s with mem := mem } bs := by
  refine ⟨shaped.static, shaped.above, shaped.high, shaped.tiles, fun b member => ?_, ?_, ?_, shaped.freep,
    shaped.apart⟩
  · dsimp only
    rw [same _ (mem_cons_of_mem _ (mem_map_of_mem member))]
    exact shaped.sizes b member
  · dsimp only
    rw [same _ mem_cons_self]
    exact shaped.baseSize
  · apply shaped.ring.congr
    intro z found
    unfold next
    dsimp only
    rw [same]
    rcases mem_cons.mp found with rfl | node
    · exact mem_cons_self
    · obtain ⟨b, member, -, rfl⟩ := mem_frees.mp node
      exact mem_cons_of_mem _ (mem_map_of_mem member)

theorem relabel (shaped : Shaped base start s bs) (live : List (Nat × Nat)) : Shaped base start { s with live := live } bs :=
  ⟨shaped.static, shaped.above, shaped.high, shaped.tiles, shaped.sizes, shaped.baseSize, shaped.ring, shaped.freep,
    shaped.apart⟩

theorem inner (shaped : Shaped base start s bs) (member : b ∈ bs) {x : Nat} (low : b.addr < x)
    (high : x < b.addr + 8 * b.size) : x ∉ base :: bs.map addr := by
  have above := shaped.above
  have start_le := (shaped.inside member).1
  intro found
  rcases mem_cons.mp found with rfl | header
  · omega
  · obtain ⟨c, other, rfl⟩ := mem_map.mp header
    obtain ⟨pre, post, rfl⟩ := append_of_mem member
    rcases mem_append.mp other with lower | rest
    · have := shaped.addr_lt lower
      omega
    · rcases mem_cons.mp rest with rfl | upper
      · omega
      · have := shaped.end_le upper
        omega

end Shaped

/-- The blocks in use are those that were given out, and large enough. -/
structure Owned (live : List (Nat × Nat)) (bs : List Block) : Prop where
  same : (live.map Prod.fst).Perm ((used bs).map addr)
  enough : ∀ e ∈ live, ∃ b ∈ used bs, e.1 = b.addr ∧ e.2 + 8 ≤ 8 * b.size

theorem mem_used : b ∈ used bs ↔ b ∈ bs ∧ b.free = false := by
  simp [used]

variable {bs' : List Block} {nbytes : Nat}

namespace Owned
variable {live : List (Nat × Nat)}

theorem give (owned : Owned live bs)
    (more : (used bs').Perm (b :: used bs)) (large : nbytes + 8 ≤ 8 * b.size) :
    Owned ((b.addr, nbytes) :: live) bs' := by
  refine ⟨(owned.same.cons b.addr).trans (more.map addr).symm, fun e member => ?_⟩
  rcases mem_cons.mp member with rfl | old
  · exact ⟨b, more.mem_iff.mpr mem_cons_self, rfl, large⟩
  · obtain ⟨c, inUse, holds⟩ := owned.enough e old
    exact ⟨c, more.mem_iff.mpr (mem_cons_of_mem _ inUse), holds⟩

theorem giveBack {pre post : List Block} {x sz : Nat} (shaped : Shaped base start s (pre ++ ⟨x, sz, false⟩ :: post))
    (owned : Owned live (pre ++ ⟨x, sz, false⟩ :: post)) (rest : used bs' = used pre ++ used post) :
    Owned (live.filter fun e => x + 8 ≠ e.1 + 8) bs' := by
  have others : ∀ b ∈ used bs', b.addr ≠ x := by
    intro b member
    have positive := shaped.around.2.1
    rw [rest, mem_append] at member
    rcases member with lower | upper
    · exact Nat.ne_of_lt (shaped.addr_lt (mem_used.mp lower).1)
    · have := shaped.end_le (mem_used.mp upper).1
      omega
  have split : (used (pre ++ ⟨x, sz, false⟩ :: post)).Perm (⟨x, sz, false⟩ :: used bs') := by
    rw [rest, used_append, used_cons_used]
    exact perm_middle
  refine ⟨?_, fun e member => ?_⟩
  · have left : (live.filter fun e => x + 8 ≠ e.1 + 8).map Prod.fst = (live.map Prod.fst).filter (· ≠ x) := by
      rw [filter_map]
      congr 1
      apply filter_congr
      intro e _
      simp [eq_comm]
    have right : ((⟨x, sz, false⟩ :: used bs' : List Block).map addr).filter (· ≠ x) = (used bs').map addr := by
      rw [map_cons, filter_cons_of_neg (by simp), filter_eq_self]
      intro a found
      obtain ⟨b, member, rfl⟩ := mem_map.mp found
      exact decide_eq_true (others b member)
    rw [left, ← right]
    exact (owned.same.trans (split.map addr)).filter _
  · obtain ⟨old, kept⟩ := mem_filter.mp member
    obtain ⟨b, inUse, here, large⟩ := owned.enough e old
    have apart : x ≠ e.1 := by simpa using kept
    rcases mem_cons.mp (split.mem_iff.mp inUse) with rfl | stays
    · exact absurd here.symm apart
    · exact ⟨b, stays, here, large⟩

end Owned

/-- Nothing has been asked for yet, or the heap has its shape. -/
def Kept (base start : Nat) (s : State) : Prop :=
  (s.freep = 0 ∧ s.brk = start ∧ s.live = []) ∨ ∃ bs, Shaped base start s bs ∧ Owned s.live bs

/-- The units that `nbytes` take up do not exceed what `sbrk` can be asked for. -/
def Small (nbytes : Nat) : Prop := 8 * ((nbytes + 7) / 8 + 1) < 2 ^ 31

instance (nbytes : Nat) : Decidable (Small nbytes) := inferInstanceAs (Decidable (_ < _))

theorem units_eq (small : Small nbytes) : units nbytes = (nbytes + 7) / 8 + 1 := by
  unfold Small at small
  unfold units
  omega

section Steps
variable (static : 0 < base) (above : base + 8 ≤ start) (low : start < 2 ^ 32)
include static above low

theorem init_spec (kept : Kept base start s) : ∃ bs, Shaped base start (init base s) bs ∧ Owned s.live bs := by
  obtain ⟨none, brk, live⟩ | ⟨bs, shaped, owned⟩ := kept
  · refine ⟨[], ?_, ?_⟩
    · rw [init, if_pos none]
      refine ⟨static, above, by dsimp only; omega, brk.symm, nofun, ?_, ?_, mem_cons_self, List.IsChain.nil⟩
      · dsimp only
        rw [Function.update_self]
      · change next _ base = base
        rw [next_update, if_pos rfl]
    · rw [live]
      exact ⟨List.Perm.nil, nofun⟩
  · refine ⟨bs, ?_, owned⟩
    rw [init, if_neg shaped.freep_ne_zero]
    exact shaped

omit static above low in
@[simp] theorem init_brk (base : Nat) (s : State) : (init base s).brk = s.brk := by
  unfold init
  split
  all_goals rfl

omit static above low in
@[simp] theorem init_live (base : Nat) (s : State) : (init base s).live = s.live := by
  unfold init
  split
  all_goals rfl

omit static above low in
theorem init_mem {z : Nat} (other : z ≠ base) : (init base s).mem z = s.mem z := by
  unfold init
  split
  · exact Function.update_of_ne other _ _
  · rfl

theorem malloc_spec (kept : Kept base start s) (small : Small nbytes) (answers : List Bool) :
    ∃ bs, Shaped base start (init base s) bs ∧ Owned s.live bs ∧
      (malloc base s.brk s nbytes answers = some (init base s, 0) ∨
        ∃ t bs' b, malloc base s.brk s nbytes answers = some (t, b.addr + 8) ∧
          Shaped.Taken base start (units nbytes) (init base s) t bs bs' b) := by
  obtain ⟨bs, shaped, owned⟩ := init_spec static above low kept
  have fuel : 2 * bs.length + 4 ≤ s.brk := by
    have length := shaped.length_le
    rw [init_brk] at length
    omega
  have bound : 8 * units nbytes < 2 ^ 31 := by
    rw [units_eq small]
    exact small
  exact ⟨bs, shaped, owned, shaped.malloc_search (Nat.succ_pos _) bound fuel⟩

theorem free_live (kept : Kept base start s) {e : Nat × Nat} (member : e ∈ s.live) :
    ∃ t, free s.brk s (e.1 + 8) = some t ∧
      Kept base start { t with live := t.live.filter fun block => e.1 + 8 ≠ block.1 + 8 } := by
  obtain ⟨-, -, live⟩ | ⟨bs, shaped, owned⟩ := kept
  · rw [live] at member
    cases member
  · obtain ⟨⟨x, sz, state⟩, inUse, here, -⟩ := owned.enough e member
    obtain ⟨inside, taken⟩ := mem_used.mp inUse
    cases taken
    have fuel := shaped.length_le
    obtain ⟨pre, post, rfl⟩ := append_of_mem inside
    simp only [length_append, length_cons] at fuel
    obtain ⟨t, bs', done, keeps, rest, live, -⟩ := shaped.free_spec (show pre.length + post.length < s.brk by omega)
    rw [here]
    refine ⟨t, done, .inr ⟨bs', keeps.relabel _, ?_⟩⟩
    rw [live]
    exact owned.giveBack shaped rest

theorem step_kept {l : Label} (kept : Kept base start s) (small : ∀ nbytes answers, l = .malloc nbytes answers → Small nbytes)
    (taken : step base s l = some t) : Kept base start t := by
  cases l with
  | malloc nbytes answers =>
    obtain ⟨⟨u, r⟩, called, rfl⟩ := Option.map_eq_some_iff.mp taken
    obtain ⟨bs, shaped, owned, failed | ⟨v, bs', b, gave, got⟩⟩ :=
      malloc_spec static above low kept (small nbytes answers rfl) answers
    · rw [failed] at called
      cases called
      rw [if_pos rfl]
      exact .inr ⟨bs, shaped, by rw [init_live]; exact owned⟩
    · rw [gave] at called
      cases called
      rw [if_neg (Nat.succ_ne_zero _)]
      refine .inr ⟨bs', got.shaped.relabel _, ?_⟩
      dsimp only
      rw [got.live, init_live, Nat.add_sub_cancel]
      apply owned.give got.used
      rw [got.size, units_eq (small nbytes answers rfl)]
      omega
  | free ap =>
    obtain ⟨⟨e, member, rfl⟩, taken⟩ := Option.ite_none_right_eq_some.mp taken
    obtain ⟨u, freed, rfl⟩ := Option.map_eq_some_iff.mp taken
    obtain ⟨v, done, keeps⟩ := free_live static above low kept member
    rw [done] at freed
    cases freed
    exact keeps
  | write x header =>
    obtain ⟨⟨e, member, after, before⟩, ⟨⟩⟩ := Option.ite_none_right_eq_some.mp taken
    obtain ⟨-, -, live⟩ | ⟨bs, shaped, owned⟩ := kept
    · rw [live] at member
      cases member
    · obtain ⟨b, inUse, here, -⟩ := owned.enough e member
      have inside := (mem_used.mp inUse).1
      rw [here, shaped.sizes b inside] at before
      rw [here] at after
      refine .inr ⟨bs, shaped.touch fun z found => ?_, owned⟩
      apply Function.update_of_ne
      intro same
      exact shaped.inner inside after before (same ▸ found)

end Steps

/-- The heap is sound: `blocks` are the pieces of the memory from `sbrk`. -/
structure Sound (base start : Nat) (s : State) (blocks : List Block) : Prop where
  /-- The list runs up from `freep`, and wraps once. -/
  circular : ∃ below above, base :: frees blocks = below ++ s.freep :: above ∧
    Path (next s.mem) s.freep (above ++ below) s.freep
  increasing : (base :: frees blocks).Pairwise (· < ·)
  tiles : Tiles addr Block.len start blocks s.brk
  headers : ∀ b ∈ blocks, (s.mem b.addr).size = b.size
  disjoint : blocks.Pairwise fun b c => b.addr + b.len ≤ c.addr
  apart : ∀ b ∈ blocks, ∀ c ∈ blocks, b.free = true → c.free = true → b.addr + b.len ≠ c.addr
  live : (s.live.map Prod.fst).Perm ((used blocks).map addr)
  usable : ∀ e ∈ s.live, e.2 + 8 ≤ 8 * (s.mem e.1).size

theorem Shaped.sound (shaped : Shaped base start s bs) (owned : Owned s.live bs) : Sound base start s bs := by
  refine ⟨?_, shaped.frees_sorted, shaped.tiles, shaped.sizes, shaped.tiles.sorted, ?_, owned.same, ?_⟩
  · obtain ⟨below, above, split⟩ := append_of_mem shaped.freep
    refine ⟨below, above, split, ?_⟩
    have ring := shaped.ring
    cases below with
    | nil =>
      obtain ⟨here, rest⟩ := List.cons.inj split
      rw [append_nil, ← here, ← rest]
      exact ring
    | cons b below =>
      obtain ⟨rfl, rest⟩ := List.cons.inj split
      rw [rest] at ring
      obtain ⟨first, second⟩ := path_append.mp ring
      exact path_append.mpr ⟨second, first⟩
  · intro b left c right lower upper meets
    obtain ⟨pre, post, split⟩ := shaped.tiles.adjacent left right meets
    have chain := shaped.apart
    rw [split] at chain
    exact (isChain_cons_cons.mp (isChain_append.mp chain).2.1).1 ⟨lower, upper⟩
  · intro e member
    obtain ⟨b, inUse, here, large⟩ := owned.enough e member
    rw [here, shaped.sizes b (mem_used.mp inUse).1]
    exact large

theorem taken_apart {nunits : Nat}
    (taken : Shaped.Taken base start nunits s t bs bs' b) :
    ∀ c ∈ used bs, b.addr + b.len ≤ c.addr ∨ c.addr + c.len ≤ b.addr := by
  have order : (used bs').Pairwise fun c d => c.addr + c.len ≤ d.addr ∨ d.addr + d.len ≤ c.addr :=
    List.Pairwise.imp .inl (List.Pairwise.sublist filter_sublist taken.shaped.tiles.sorted)
  have moved := (taken.used.pairwise_iff fun before => before.symm).mp order
  exact fun c member => rel_of_pairwise_cons moved member

/-- In every run of `malloc` and `free` the heap is sound, every call comes to an end, and what
`malloc` returns is large enough and overlaps nothing that is in use. -/
theorem heap_sound (base : Nat) {s t : State} {ls : List Label} (initial : Initial base s)
    (small : ∀ nbytes answers, .malloc nbytes answers ∈ ls → Small nbytes)
    (run : run (step base) s ls = some t) :
    (t.freep = 0 ∧ t.brk = s.brk ∧ t.live = [] ∨ ∃ blocks, Sound base s.brk t blocks) ∧
    (∀ nbytes answers, Small nbytes → ∃ u r, malloc base t.brk t nbytes answers = some (u, r) ∧
      (r = 0 ∨ ∃ p, r = p + 8 ∧ nbytes + 8 ≤ 8 * (u.mem p).size ∧ s.brk ≤ p ∧ p + 8 * (u.mem p).size ≤ u.brk ∧
        ∀ e ∈ t.live, (u.mem e.1).size = (t.mem e.1).size ∧
          (p + 8 * (u.mem p).size ≤ e.1 ∨ e.1 + 8 * (u.mem e.1).size ≤ p))) ∧
    ∀ e ∈ t.live, ∃ u, free t.brk t (e.1 + 8) = some u := by
  have kept : Kept base s.brk t := by
    have labels : ∀ l ∈ ls, ∀ nbytes answers, l = .malloc nbytes answers → Small nbytes := by
      intro l member nbytes answers same
      exact small nbytes answers (same ▸ member)
    refine Transition.run_invariant_along (step base) (Kept base s.brk) ?_ ?_
      (along_of_mem (step base) labels s) run
    · intro s' l t' here smallLabel taken
      exact step_kept initial.static initial.above initial.brk here smallLabel taken
    · exact .inl ⟨initial.freep, rfl, initial.live⟩
  refine ⟨?_, fun nbytes answers bound => ?_, fun e member => ?_⟩
  · obtain none | ⟨bs, shaped, owned⟩ := kept
    · exact .inl none
    · exact .inr ⟨bs, shaped.sound owned⟩
  · obtain ⟨bs, shaped, owned, failed | ⟨u, bs', b, gave, taken⟩⟩ :=
      malloc_spec initial.static initial.above initial.brk kept bound answers
    · exact ⟨_, _, failed, .inl rfl⟩
    · have inUse : b ∈ used bs' := taken.used.mem_iff.mpr mem_cons_self
      have inside := (mem_used.mp inUse).1
      have bounds := taken.shaped.inside inside
      refine ⟨u, _, gave, .inr ⟨b.addr, rfl, ?_⟩⟩
      rw [taken.shaped.sizes b inside]
      refine ⟨?_, bounds.1, bounds.2.2, fun e member => ?_⟩
      · rw [taken.size, units_eq bound]
        omega
      · obtain ⟨c, held, here, -⟩ := owned.enough e member
        have stays : c ∈ used bs' := taken.used.mem_iff.mpr (mem_cons_of_mem _ held)
        have old := (mem_used.mp held).1
        have above := initial.above
        have start_le := (shaped.inside old).1
        have same : (init base t).mem c.addr = t.mem c.addr := init_mem (by omega)
        rw [here, taken.shaped.sizes c (mem_used.mp stays).1, ← same, shaped.sizes c old]
        exact ⟨rfl, taken_apart taken c held⟩
  · obtain ⟨u, done, -⟩ := free_live initial.static initial.above initial.brk kept member
    exact ⟨u, done⟩

def loaded : State := ⟨fun _ => ⟨0, 0⟩, 0, 16, []⟩

theorem heap_sound_reuse : ∃ t,
    run (step 8) loaded [.malloc 10 [true], .malloc 20 [], .free 32768, .malloc 5 []] = some t ∧
      t.live = [(32768, 5), (32728, 20)] ∧ ∃ blocks, Sound 8 16 t blocks := by
  have reached : (run (step 8) loaded
      [.malloc 10 [true], .malloc 20 [], .free 32768, .malloc 5 []]).map State.live =
        some [(32768, 5), (32728, 20)] := by
    decide +kernel
  obtain ⟨t, run, live⟩ := Option.map_eq_some_iff.mp reached
  have initial : Initial 8 loaded := ⟨rfl, by decide, by decide, by decide, rfl⟩
  have small : ∀ nbytes answers, Label.malloc nbytes answers ∈
      [.malloc 10 [true], .malloc 20 [], .free 32768, .malloc 5 []] → Small nbytes := by
    intro nbytes answers member
    simp only [mem_cons, Label.malloc.injEq, reduceCtorEq, not_mem_nil, or_false, false_or] at member
    obtain ⟨rfl, -⟩ | ⟨rfl, -⟩ | ⟨rfl, -⟩ := member
    all_goals decide
  refine ⟨t, run, live, ?_⟩
  obtain ⟨-, -, none⟩ | sound := (heap_sound 8 initial small run).1
  · rw [live] at none
    cases none
  · exact sound

/-- When all blocks have been freed, the memory from `sbrk` is one free block again. -/
theorem freed_heap_whole (base : Nat) {s t : State} {ls : List Label} (initial : Initial base s)
    (small : ∀ nbytes answers, .malloc nbytes answers ∈ ls → Small nbytes)
    (run : run (step base) s ls = some t) (freed : t.live = []) (more : t.brk ≠ s.brk) :
    next t.mem base = s.brk ∧ next t.mem s.brk = base ∧ s.brk + 8 * (t.mem s.brk).size = t.brk := by
  have labels : ∀ l ∈ ls, ∀ nbytes answers, l = .malloc nbytes answers → Small nbytes :=
    fun l member nbytes answers same => small nbytes answers (same ▸ member)
  have kept : Kept base s.brk t := Transition.run_invariant_along (step base) (Kept base s.brk)
    (fun _ _ _ here smallLabel taken => step_kept initial.static initial.above initial.brk here smallLabel taken)
    (.inl ⟨initial.freep, rfl, initial.live⟩) (along_of_mem (step base) labels s) run
  obtain ⟨-, same, -⟩ | ⟨bs, shaped, owned⟩ := kept
  · exact absurd same more
  have free : ∀ b ∈ bs, b.free = true := by
    intro b member
    by_contra taken
    have inUse : b ∈ used bs := mem_used.mpr ⟨member, by simpa using taken⟩
    have listed := owned.same.mem_iff.mpr (mem_map_of_mem inUse)
    rw [freed] at listed
    exact absurd listed not_mem_nil
  have tiles := shaped.tiles
  have ring := shaped.ring
  rcases bs with _ | ⟨⟨addr, size, isFree⟩, _ | ⟨c, rest⟩⟩
  · exact absurd tiles.symm more
  · obtain rfl : isFree = true := free _ mem_cons_self
    obtain ⟨rfl, -, whole⟩ := tiles
    refine ⟨ring.1, ring.2, ?_⟩
    rw [shaped.sizes _ mem_cons_self]
    exact whole
  · have apart := (isChain_cons_cons.mp shaped.apart).1
    exact absurd ⟨free _ mem_cons_self, free c (mem_cons_of_mem _ mem_cons_self)⟩ apart

theorem freed_heap_whole_twoBlocks : ∃ t,
    run (step 8) loaded [.malloc 10 [true], .malloc 20 [], .free 32768, .free 32736] = some t ∧
      next t.mem 8 = 16 ∧ next t.mem 16 = 8 ∧ 16 + 8 * (t.mem 16).size = t.brk := by
  have reached : (run (step 8) loaded [.malloc 10 [true], .malloc 20 [], .free 32768, .free 32736]).any
      (fun t => decide (t.live = [] ∧ t.brk ≠ 16)) = true := by
    decide +kernel
  obtain ⟨t, run, after⟩ := (Option.any_eq_true _ _).mp reached
  obtain ⟨freed, more⟩ := of_decide_eq_true after
  refine ⟨t, run, freed_heap_whole 8 ⟨rfl, by decide, by decide, by decide, rfl⟩ ?_ run freed more⟩
  intro nbytes answers member
  simp only [mem_cons, Label.malloc.injEq, reduceCtorEq, not_mem_nil, or_false] at member
  obtain ⟨rfl, -⟩ | ⟨rfl, -⟩ := member
  all_goals decide

end Xv6.Umalloc
