import Xv6.Umalloc.Heap

/-! `malloc` takes the first block that is large enough, after asking for more memory if there
is none. -/

namespace Xv6.Umalloc.Shaped
open Lib Ring List

variable {base start : Nat} {s : State} {bs : List Block} {nunits : Nat}

structure Taken (base start nunits : Nat) (s t : State) (bs bs' : List Block) (b : Block) : Prop where
  shaped : Shaped base start t bs'
  size : b.size = nunits
  used : (used bs').Perm (b :: used bs)
  live : t.live = s.live

section Take
variable {pre post : List Block} {x sz : Nat} (shaped : Shaped base start s (pre ++ ⟨x, sz, true⟩ :: post))
include shaped

theorem ring_split : Path (next s.mem) base (frees pre) x ∧ Path (next s.mem) x (frees post) base := by
  have ring := shaped.ring
  rw [frees_append, frees_cons_free] at ring
  exact path_append.mp ring

theorem unlinked : Shaped base start
    { s with mem := setPtr s.mem (before base pre) (s.mem x).ptr, freep := before base pre }
    (pre ++ ⟨x, sz, false⟩ :: post) := by
  have p_lt : before base pre < x := shaped.lower_lt (before_mem base pre)
  have chains := isChain_append.mp shaped.apart
  refine ⟨shaped.static, shaped.above, shaped.high, ?_, fun b member => ?_, ?_, ?_, ?_, ?_⟩
  · have parts := Tiles.middle_iff.mp shaped.tiles
    exact Tiles.middle_iff.mpr parts
  · dsimp only
    rw [size_setPtr]
    rcases mem_append.mp member with first | rest
    · exact shaped.sizes b (mem_append_left _ first)
    · rcases mem_cons.mp rest with rfl | second
      · exact shaped.sizes ⟨x, sz, true⟩ (by simp)
      · exact shaped.sizes b (mem_append_right _ (mem_cons_of_mem _ second))
  · dsimp only
    rw [size_setPtr]
    exact shaped.baseSize
  · have ring := shaped.ring
    have nodup := shaped.nodup
    rw [frees_append, ← cons_append] at nodup
    rw [frees_append] at ring ⊢
    apply ring.relink (nodup_append.mp nodup).1
    · intro z _ other
      rw [next_setPtr]
      exact if_neg other
    · apply shaped.ring_split.2.move
      · rw [next_setPtr]
        exact if_pos rfl
      · intro z found
        have up := shaped.lt_upper found
        rw [next_setPtr, if_neg (by omega)]
  · rw [frees_append, ← cons_append]
    exact mem_append_left _ (before_mem base pre)
  · refine isChain_append.mpr ⟨chains.1, ?_, fun b _ c first both => ?_⟩
    · refine isChain_cons.mpr ⟨fun c _ both => ?_, (isChain_cons.mp chains.2.1).2⟩
      exact absurd both.1 Bool.false_ne_true
    · cases first
      exact absurd both.2 Bool.false_ne_true

theorem cut (positive : 0 < nunits) (smaller : nunits < sz) : Shaped base start
    { s with
      mem := setSize (setSize s.mem x (sz - nunits)) (x + 8 * (sz - nunits)) nunits
      freep := before base pre }
    (pre ++ ⟨x, sz - nunits, true⟩ :: ⟨x + 8 * (sz - nunits), nunits, false⟩ :: post) := by
  have around := shaped.around
  have low := around.1.le
  have above := shaped.above
  have chains := isChain_append.mp shaped.apart
  refine ⟨shaped.static, shaped.above, shaped.high, ?_, fun b member => ?_, ?_, ?_, ?_, ?_⟩
  · refine Tiles.middle_iff.mpr ⟨around.1, ?_, rfl, ?_, ?_⟩
    · change 0 < 8 * (sz - nunits)
      omega
    · change 0 < 8 * nunits
      omega
    · rw [show x + Block.len ⟨x, sz - nunits, true⟩ + Block.len ⟨x + 8 * (sz - nunits), nunits, false⟩ = x + 8 * sz by
        change x + 8 * (sz - nunits) + 8 * nunits = x + 8 * sz
        omega]
      exact around.2.2
  · dsimp only
    rw [size_setSize, size_setSize]
    rcases mem_append.mp member with first | rest
    · have down := shaped.addr_lt first
      rw [if_neg (by omega), if_neg (by omega)]
      exact shaped.sizes b (mem_append_left _ first)
    · rcases mem_cons.mp rest with rfl | rest
      · dsimp only
        rw [if_neg (by omega), if_pos rfl]
      · rcases mem_cons.mp rest with rfl | second
        · dsimp only
          rw [if_pos rfl]
        · have up := shaped.end_le second
          rw [if_neg (by omega), if_neg (by omega)]
          exact shaped.sizes b (mem_append_right _ (mem_cons_of_mem _ second))
  · dsimp only
    rw [size_setSize, size_setSize, if_neg (by omega), if_neg (by omega)]
    exact shaped.baseSize
  · have nodes : frees (pre ++ ⟨x, sz - nunits, true⟩ :: ⟨x + 8 * (sz - nunits), nunits, false⟩ :: post) =
        frees (pre ++ ⟨x, sz, true⟩ :: post) := by simp
    rw [nodes]
    apply shaped.ring.congr
    intro z _
    rw [next_setSize, next_setSize]
  · rw [frees_append, ← cons_append]
    exact mem_append_left _ (before_mem base pre)
  · refine isChain_append.mpr ⟨chains.1, ?_, fun b last c first both => ?_⟩
    · refine isChain_cons_cons.mpr ⟨fun both => absurd both.2 Bool.false_ne_true, ?_⟩
      refine isChain_cons.mpr ⟨fun c _ both => ?_, (isChain_cons.mp chains.2.1).2⟩
      exact absurd both.1 Bool.false_ne_true
    · cases first
      exact chains.2.2 b last _ rfl ⟨both.1, rfl⟩

theorem take_spec (positive : 0 < nunits) (fits : nunits ≤ sz) : ∃ t bs' b,
    take s nunits (before base pre) x = (t, b.addr + 8) ∧
      Taken base start nunits s t (pre ++ ⟨x, sz, true⟩ :: post) bs' b := by
  have member : (⟨x, sz, true⟩ : Block) ∈ pre ++ ⟨x, sz, true⟩ :: post := by simp
  have size : (s.mem x).size = sz := shaped.sizes _ member
  have bounds : start ≤ x ∧ 0 < sz ∧ x + 8 * sz ≤ s.brk := shaped.inside member
  have high := shaped.high
  by_cases exact : sz = nunits
  · refine ⟨_, _, ⟨x, sz, false⟩, ?_, shaped.unlinked, exact, ?_, rfl⟩
    · rw [take, if_pos (size.trans exact)]
      exact congrArg _ (Nat.mod_eq_of_lt (by omega))
    · simp only [used_append, used_cons_used, used_cons_free]
      exact perm_middle
  · have smaller : nunits < sz := Nat.lt_of_le_of_ne fits (Ne.symm exact)
    refine ⟨_, _, ⟨x + 8 * (sz - nunits), nunits, false⟩, ?_, shaped.cut positive smaller, rfl, ?_, rfl⟩
    · have there : plus x (sz - nunits) = x + 8 * (sz - nunits) := Nat.mod_eq_of_lt (by omega)
      have returned : plus (x + 8 * (sz - nunits)) 1 = x + 8 * (sz - nunits) + 8 := Nat.mod_eq_of_lt (by omega)
      rw [take, if_neg (by rw [size]; exact exact), size]
      dsimp only
      rw [there, returned]
    · simp only [used_append, used_cons_used, used_cons_free]
      exact perm_middle

end Take

section Search
variable {fuel rounds : Nat} {answers : List Bool}

theorem search_path {x z : Nat} {l : List Nat} (path : Path (next s.mem) x l z)
    (passed : ∀ w ∈ l, (s.mem w).size < nunits ∧ w ≠ s.freep) :
    search fuel nunits (rounds + l.length) answers s x (next s.mem x) =
      search fuel nunits rounds answers s (l.getLastD x) z := by
  induction l generalizing x with
  | nil => rw [show next s.mem x = z from path]; rfl
  | cons w l ih =>
    obtain ⟨small, other⟩ := passed w mem_cons_self
    rw [show next s.mem x = w from path.1, getLastD_cons]
    change search fuel nunits (rounds + l.length + 1) answers s x w = _
    rw [search, if_neg (Nat.not_le_of_lt small), if_neg other]
    exact ih path.2 fun v found => passed v (mem_cons_of_mem _ found)

variable (shaped : Shaped base start s bs)
include shaped

theorem prevp_eq {pre post : List Block} {x sz p : Nat} (split : bs = pre ++ ⟨x, sz, true⟩ :: post)
    (node : p ∈ base :: frees bs) (leads : next s.mem p = x) : p = before base pre := by
  apply shaped.ring.next_injOn shaped.nodup node
  · rw [split, frees_append, ← cons_append]
    exact mem_append_left _ (before_mem base pre)
  · rw [split] at shaped
    rw [leads]
    exact shaped.ring_split.1.next_last.symm

theorem search_fits (fuel : Nat) (answers : List Bool) (positive : 0 < nunits) (enough : bs.length < rounds)
    (fits : ∃ b ∈ bs, b.free = true ∧ nunits ≤ b.size) : ∃ t bs' b,
    search fuel nunits rounds answers s s.freep (next s.mem s.freep) = some (t, b.addr + 8) ∧
      Taken base start nunits s t bs bs' b := by
  obtain ⟨m, around, same⟩ := shaped.ring.rotate shaped.freep
  have distinct : (s.freep :: m).Nodup := same.nodup_iff.mpr shaped.nodup
  have nodes : ∀ w, w ∈ m ++ [s.freep] ↔ w ∈ base :: frees bs := by
    intro w
    rw [← same.mem_iff]
    simp [or_comm]
  -- the first node on the way that is large enough
  obtain ⟨z, first⟩ : ∃ z, (m ++ [s.freep]).find? (fun w => nunits ≤ (s.mem w).size) = some z := by
    obtain ⟨b, member, free, large⟩ := fits
    have there : b.addr ∈ m ++ [s.freep] :=
      (nodes _).mpr (mem_cons_of_mem _ (mem_frees.mpr ⟨b, member, free, rfl⟩))
    apply Option.isSome_iff_exists.mp
    rw [List.find?_isSome]
    exact ⟨_, there, by rw [shaped.sizes b member]; exact decide_eq_true large⟩
  obtain ⟨large, early, late, split, small⟩ := List.find?_eq_some_iff_append.mp first
  have large : nunits ≤ (s.mem z).size := of_decide_eq_true large
  have node : z ∈ base :: frees bs := (nodes z).mp (by rw [split]; simp)
  have toFirst : Path (next s.mem) s.freep early z := around.initial split
  have rotated : (m ++ [s.freep]).Nodup := nodup_append_comm.mp distinct
  have passed : ∀ w ∈ early, (s.mem w).size < nunits ∧ w ≠ s.freep := by
    intro w found
    refine ⟨?_, fun here => ?_⟩
    · have fails := small w found
      simp only [Bool.not_eq_true', decide_eq_false_iff_not] at fails
      exact Nat.lt_of_not_le fails
    · -- the search would have come full circle before
      rw [split] at rotated
      have last : s.freep ∈ z :: late := by
        have ends : (early ++ z :: late).getLast? = some s.freep := by rw [← split]; simp
        rw [List.getLast?_append_of_ne_nil _ (cons_ne_nil z late)] at ends
        exact mem_of_getLast? ends
      exact disjoint_of_nodup_append rotated (here ▸ found) last
  have prev : early.getLastD s.freep ∈ base :: frees bs := by
    rw [← same.mem_iff, ← getLast_eq_getLastD (cons_ne_nil s.freep early)]
    have inside := getLast_mem (cons_ne_nil s.freep early)
    rcases mem_cons.mp inside with here | found
    · rw [here]
      exact mem_cons_self
    · have there : (s.freep :: early).getLast (cons_ne_nil _ _) ∈ m ++ [s.freep] := by
        rw [split]
        exact mem_append_left _ found
      rw [mem_append, mem_singleton, or_comm, ← mem_cons] at there
      exact there
  have short : early.length < rounds := by
    have size := congrArg List.length split
    have total := same.length_eq
    have few := frees_length bs
    simp only [length_append, length_cons, length_nil] at size total
    omega
  obtain ⟨more, rfl⟩ : ∃ more, rounds = more + 1 + early.length := ⟨rounds - 1 - early.length, by omega⟩
  rw [search_path toFirst passed, search, if_pos large]
  rcases mem_cons.mp node with rfl | found
  · rw [shaped.baseSize] at large
    omega
  · obtain ⟨⟨x, sz, state⟩, member, free, rfl⟩ := mem_frees.mp found
    cases free
    rw [shaped.sizes _ member] at large
    obtain ⟨pre, post, blocks⟩ := append_of_mem member
    rw [shaped.prevp_eq blocks prev toFirst.next_last]
    subst blocks
    obtain ⟨t, bs', b, took, taken⟩ := shaped.take_spec positive large
    exact ⟨t, bs', b, congrArg some took, taken⟩

theorem search_none (fuel rounds : Nat) (answers : List Bool) (positive : 0 < nunits) (small : ∀ b ∈ bs, b.free = true → b.size < nunits) :
    search fuel nunits (rounds + 1 + (frees bs).length) answers s s.freep (next s.mem s.freep) =
      match morecore fuel s nunits (answers.headD false) with
      | none => none
      | some (t, p) => if p = 0 then some (t, 0) else search fuel nunits rounds answers.tail t p (next t.mem p) := by
  obtain ⟨m, around, same⟩ := shaped.ring.rotate shaped.freep
  have distinct : (s.freep :: m).Nodup := same.nodup_iff.mpr shaped.nodup
  have length : m.length = (frees bs).length := Nat.succ.inj same.length_eq
  have tooSmall : ∀ w ∈ s.freep :: m, (s.mem w).size < nunits := by
    intro w found
    rcases mem_cons.mp (same.mem_iff.mp found) with rfl | there
    · rw [shaped.baseSize]
      exact positive
    · obtain ⟨b, member, free, rfl⟩ := mem_frees.mp there
      rw [shaped.sizes b member]
      exact small b member free
  have passed : ∀ w ∈ m, (s.mem w).size < nunits ∧ w ≠ s.freep := by
    intro w found
    refine ⟨tooSmall w (mem_cons_of_mem _ found), fun here => ?_⟩
    exact (nodup_cons.mp distinct).1 (here ▸ found)
  rw [← length]
  apply (search_path around passed).trans
  exact (if_neg (Nat.not_le_of_lt (tooSmall _ mem_cons_self))).trans (if_pos rfl)

end Search

section Grow
variable (shaped : Shaped base start s bs) {nu : Nat}
include shaped

theorem grown (positive : 0 < nu) (room : s.brk + 8 * nu < 2 ^ 32) :
    Shaped base start { s with mem := setSize s.mem s.brk nu, brk := s.brk + 8 * nu }
      (bs ++ [⟨s.brk, nu, false⟩]) := by
  have above := shaped.above
  have low := shaped.tiles.le
  refine ⟨shaped.static, shaped.above, room, ?_, fun b member => ?_, ?_, ?_, ?_, ?_⟩
  · refine Tiles.middle_iff.mpr ⟨shaped.tiles, ?_, rfl⟩
    change 0 < 8 * nu
    omega
  · dsimp only
    rw [size_setSize]
    rcases mem_append.mp member with old | new
    · have bounds := shaped.inside old
      rw [if_neg (by omega)]
      exact shaped.sizes b old
    · rw [mem_singleton] at new
      rw [new, if_pos rfl]
  · dsimp only
    rw [size_setSize, if_neg (by omega)]
    exact shaped.baseSize
  · rw [frees_append, frees_cons_used, frees_nil, append_nil]
    apply shaped.ring.congr
    intro z _
    rw [next_setSize]
  · rw [frees_append, frees_cons_used, frees_nil, append_nil]
    exact shaped.freep
  · refine isChain_append.mpr ⟨shaped.apart, isChain_singleton _, fun b _ c first both => ?_⟩
    cases first
    exact absurd both.2 Bool.false_ne_true

theorem freep_ne_zero : s.freep ≠ 0 := by
  have static := shaped.static
  have above := shaped.above
  rcases mem_cons.mp shaped.freep with here | found
  · omega
  · obtain ⟨b, member, -, here⟩ := mem_frees.mp found
    have := (shaped.inside member).1
    omega

theorem morecore_spec {fuel : Nat} (granted : Bool) (enough : bs.length < fuel) (small : 8 * nunits < 2 ^ 31) :
    morecore fuel s nunits granted = some (s, 0) ∨ ∃ t bs', morecore fuel s nunits granted = some (t, t.freep) ∧
      Shaped base start t bs' ∧ used bs' = used bs ∧ t.live = s.live ∧ bs'.length ≤ bs.length + 1 ∧
      ∃ b ∈ bs', b.free = true ∧ nunits ≤ b.size := by
  obtain ⟨nu, asked, least, large, bound⟩ : ∃ nu, (if nunits < 4096 then 4096 else nunits) = nu ∧ nunits ≤ nu ∧
      4096 ≤ nu ∧ 8 * nu < 2 ^ 31 := by
    refine ⟨_, rfl, ?_⟩
    split
    all_goals omega
  have amount : (BitVec.ofNat 32 (nu * 8)).toInt = 8 * nu := by
    have value : (BitVec.ofNat 32 (nu * 8)).toNat = nu * 8 := by
      rw [BitVec.toNat_ofNat]
      exact Nat.mod_eq_of_lt (by omega)
    rw [BitVec.toInt_eq_toNat_of_lt (by omega), value]
    omega
  simp only [morecore, asked, amount, sbrk]
  by_cases allowed : granted ∧ (0 : Int) ≤ s.brk + 8 * nu ∧ (s.brk + 8 * nu : Int) < 2 ^ 32
  · right
    have room : s.brk + 8 * nu < 2 ^ 32 := by omega
    have moved : (s.brk + 8 * nu : Int).toNat = s.brk + 8 * nu := by omega
    have header : plus s.brk 1 = s.brk + 8 := Nat.mod_eq_of_lt (by omega)
    obtain ⟨t, bs', freed, keeps, uses, live, -, short, b, member, free, size⟩ :=
      (shaped.grown (by omega) room).free_spec enough
    rw [if_pos allowed]
    simp only [moved, header, freed, Option.map_some]
    refine ⟨t, bs', rfl, keeps, ?_, live, short, b, member, free, Nat.le_trans least size⟩
    rw [uses, used_nil, append_nil]
  · left
    rw [if_neg allowed]

theorem malloc_search {fuel : Nat} {answers : List Bool} (positive : 0 < nunits) (small : 8 * nunits < 2 ^ 31)
    (enough : 2 * bs.length + 4 ≤ fuel) :
    search fuel nunits fuel answers s s.freep (next s.mem s.freep) = some (s, 0) ∨ ∃ t bs' b,
      search fuel nunits fuel answers s s.freep (next s.mem s.freep) = some (t, b.addr + 8) ∧
        Taken base start nunits s t bs bs' b := by
  by_cases fits : ∃ b ∈ bs, b.free = true ∧ nunits ≤ b.size
  · exact .inr (shaped.search_fits fuel answers positive (by omega) fits)
  · have tooSmall : ∀ b ∈ bs, b.free = true → b.size < nunits := by
      intro b member free
      exact Nat.lt_of_not_le fun large => fits ⟨b, member, free, large⟩
    have few := frees_length bs
    obtain ⟨rounds, split⟩ : ∃ rounds, fuel = rounds + 1 + (frees bs).length :=
      ⟨fuel - 1 - (frees bs).length, by omega⟩
    have around := shaped.search_none fuel rounds answers positive tooSmall
    rw [← split] at around
    rw [around]
    obtain refused | ⟨t, bs', got, keeps, uses, live, short, fits⟩ :=
      shaped.morecore_spec (answers.headD false) (by omega : bs.length < fuel) small
    · rw [refused]
      exact .inl rfl
    · right
      rw [got]
      dsimp only
      rw [if_neg keeps.freep_ne_zero]
      obtain ⟨u, bs'', b, found, taken⟩ :=
        keeps.search_fits fuel answers.tail positive (show bs'.length < rounds by omega) fits
      exact ⟨u, bs'', b, found, taken.shaped, taken.size, uses ▸ taken.used, taken.live.trans live⟩

end Grow

end Xv6.Umalloc.Shaped
