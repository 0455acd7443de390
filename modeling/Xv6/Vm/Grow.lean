import Xv6.Vm.Paging

/-! `growproc`: which calls do all of what they are asked, or nothing; and what `deallocuvm` frees. -/

namespace Xv6.Vm
open Lib Nat Multiset

/-- No page is in two places, and each of them is one that `kfree` takes. -/
structure Sound (m : Mem) (pd : PageDir) : Prop where
  nodup : (m.pages pd).Nodup
  usable : m.Usable (m.pages pd)

/-- The present user pages are those of `[0, PGROUNDUP(sz))`. -/
def Proc.Exact (p : Proc) : Prop :=
  ∀ va < KERNBASE, (p.pgdir.lookup (va / PGSIZE)).isSome = true ↔ va < pgroundup p.sz

/-- The call has changed the size by `n`, or it has failed and changed nothing. -/
structure AllOrNothing (m : Mem) (p : Proc) (n : Int) (m' : Mem) (p' : Proc) (r : Int) : Prop where
  result : r = 0 ∨ r = -1
  size : r = 0 → (p'.sz : Int) = p.sz + n
  exact_ : r = 0 → p'.Exact
  kept : r = 0 → ∀ va < KERNBASE, va < pgroundup p.sz → va < pgroundup p'.sz →
    p'.pgdir.lookup (va / PGSIZE) = p.pgdir.lookup (va / PGSIZE)
  fresh : r = 0 → ∀ va < KERNBASE, pgroundup p.sz ≤ va → va < pgroundup p'.sz →
    ∃ e, p'.pgdir.lookup (va / PGSIZE) = some e ∧ m'.content e.ppn = Bytes.zero
  nothing : r = -1 → p'.sz = p.sz ∧ ∀ va < KERNBASE, p'.pgdir.lookup (va / PGSIZE) = p.pgdir.lookup (va / PGSIZE)
  content : ∀ va < KERNBASE, ∀ e, p.pgdir.lookup (va / PGSIZE) = some e → p'.pgdir.lookup (va / PGSIZE) = some e →
    m'.content e.ppn = m.content e.ppn

section Pages

variable {m m' : Mem} {pd pd' : PageDir} {w : Nat} {e : Pte}

theorem Sound.congr (sound : Sound m pd) (frame : m' = { m with freelist := m'.freelist, content := m'.content })
    (pages : m'.pages pd' = m.pages pd) : Sound m' pd' := by
  refine ⟨by rw [pages]; exact sound.nodup, fun page member => ?_⟩
  rw [frame]
  exact sound.usable page (by rw [← pages]; exact member)

theorem Sound.notFree (sound : Sound m pd) (inside : w < UPAGES) (mapped : pd.lookup w = some e) : e.ppn ∉ m.freelist := by
  intro free
  have nodup := sound.nodup
  rw [Mem.pages, nodup_add] at nodup
  have there : e.ppn ∈ pd.user := mem_gathered.mpr ⟨w, inside, e, mapped, rfl⟩
  exact disjoint_left.mp nodup.2.2 (mem_add.mpr (.inl (mem_coe.mpr free))) there

theorem div_lt_upages {va : Nat} (below : va < KERNBASE) : va / PGSIZE < UPAGES := by
  unfold UPAGES KERNBASE PGSIZE
  unfold KERNBASE at below
  omega

theorem lt_pgroundup_iff {va sz : Nat} (small : sz ≤ KERNBASE) : va < pgroundup sz ↔ va / PGSIZE < pagesFor sz := by
  rw [pgroundup_eq small]
  unfold PGSIZE
  omega

theorem Proc.exact_iff {p : Proc} (small : p.sz ≤ KERNBASE) :
    p.Exact ↔ ∀ w < UPAGES, (p.pgdir.lookup w).isSome = true ↔ w < pagesFor p.sz := by
  have order := upages_eq
  constructor
  · intro exact_ w below
    have here := exact_ (PGSIZE * w) (by unfold KERNBASE PGSIZE; omega)
    rwa [Nat.mul_div_cancel_left w (by decide), lt_pgroundup_iff small, Nat.mul_div_cancel_left w (by decide)] at here
  · intro pages va below
    rw [lt_pgroundup_iff small]
    exact pages _ (div_lt_upages below)

end Pages

section Grow

variable {m m' : Mem} {p : Proc} {n : Int} {pd : PageDir} {stop : Stop → Prop}

theorem Undone.nothing (undone : Undone m m' p.pgdir pd 0) (sound : Sound m p.pgdir) :
    AllOrNothing m p n m' { p with pgdir := pd } (-1) := by
  have order := upages_le
  refine ⟨.inr rfl, nofun, nofun, nofun, nofun, fun _ => ⟨rfl, fun va below => ?_⟩, fun va below e mapped _ => ?_⟩
  · exact undone.lookup _ (lt_of_lt_of_le (div_lt_upages below) order)
  · exact undone.content _ (sound.notFree (div_lt_upages below) mapped)

theorem Grown.all {newsz : Nat} (grown : Grown m m' p.pgdir pd (pagesFor p.sz) (pagesFor newsz)) (sound : Sound m p.pgdir)
    (exact_ : p.Exact) (small : p.sz ≤ newsz) (below : newsz ≤ KERNBASE) (size : (newsz : Int) = p.sz + n) :
    AllOrNothing m p n m' { p with pgdir := pd, sz := newsz } 0 := by
  have order := upages_le
  have top := pagesFor_le below
  have less := pagesFor_mono small
  have pages := (Proc.exact_iff (by omega)).mp exact_
  have kept : ∀ va < KERNBASE, va < pgroundup p.sz → pd.lookup (va / PGSIZE) = p.pgdir.lookup (va / PGSIZE) := by
    intro va inside old
    rw [lt_pgroundup_iff (by omega)] at old
    exact grown.lookup _ (lt_of_lt_of_le (div_lt_upages inside) order) (by omega)
  refine ⟨.inl rfl, fun _ => size, fun _ => ?_, fun _ va inside old _ => kept va inside old, fun _ va inside new_ old => ?_,
    nofun, fun va inside e mapped _ => ?_⟩
  · refine (Proc.exact_iff (p := { p with pgdir := pd, sz := newsz }) below).mpr fun w inside => ?_
    change (pd.lookup w).isSome = true ↔ w < pagesFor newsz
    by_cases old : w < pagesFor p.sz
    · have same := grown.lookup w (by omega) (by omega)
      exact iff_of_true (by rw [same]; exact (pages w inside).mpr old) (by omega)
    · by_cases new_ : w < pagesFor newsz
      · obtain ⟨page, -, mapped, -⟩ := grown.fresh w (by omega) new_
        exact iff_of_true (by rw [mapped]; rfl) new_
      · have same := grown.lookup w (by omega) (by omega)
        refine iff_of_false ?_ new_
        rw [same]
        exact fun present => old ((pages w inside).mp present)
  · rw [← not_lt, lt_pgroundup_iff (by omega)] at new_
    rw [lt_pgroundup_iff below] at old
    obtain ⟨page, -, mapped, zero⟩ := grown.fresh (va / PGSIZE) (by omega) old
    exact ⟨_, mapped, zero⟩
  · exact grown.content _ (sound.notFree (div_lt_upages inside) mapped)

theorem Freed.all {newsz : Nat} (freed : Freed m m' p.pgdir pd (pagesFor newsz) (pagesFor p.sz)) (sound : Sound m p.pgdir)
    (exact_ : p.Exact) (small : newsz ≤ p.sz) (below : p.sz ≤ KERNBASE) (size : (newsz : Int) = p.sz + n) :
    AllOrNothing m p n m' { p with pgdir := pd, sz := newsz } 0 := by
  have order := upages_le
  have top := pagesFor_le below
  have less := pagesFor_mono small
  have pages := (Proc.exact_iff below).mp exact_
  have after : Sound m' pd := by
    apply sound.congr freed.frame
    rw [Mem.pages, Mem.pages, freed.tables, add_right_comm, freed.pages, add_right_comm]
  refine ⟨.inl rfl, fun _ => size, fun _ => ?_, fun _ va inside _ old => ?_, fun _ va inside new_ old => ?_, (fun wrong => by cases wrong),
    fun va inside e mapped still => ?_⟩
  · refine (Proc.exact_iff (p := { p with pgdir := pd, sz := newsz }) (small.trans below)).mpr fun w inside => ?_
    change (pd.lookup w).isSome = true ↔ w < pagesFor newsz
    have same := freed.lookup w (by omega)
    by_cases old : w < pagesFor newsz
    · rw [if_neg (by omega)] at same
      exact iff_of_true (by rw [same]; exact (pages w inside).mpr (by omega)) old
    · refine iff_of_false ?_ old
      rw [same]
      split
      · exact fun wrong => by cases wrong
      · exact fun present => by have := (pages w inside).mp present; omega
  · change va < pgroundup newsz at old
    rw [lt_pgroundup_iff (by omega)] at old
    rw [freed.lookup _ (lt_of_lt_of_le (div_lt_upages inside) order), if_neg (by omega)]
  · change va < pgroundup newsz at old
    rw [← not_lt, lt_pgroundup_iff below] at new_
    rw [lt_pgroundup_iff (by omega)] at old
    omega
  · exact freed.content _ (after.notFree (div_lt_upages inside) still)

/-- The calls that `growproc` gets right. -/
def Servable (sz : Nat) (n : Int) : Prop := 0 ≤ n ∨ 0 < (sz : Int) + n ∨ sz = 0

instance (sz : Nat) (n : Int) : Decidable (Servable sz n) := inferInstanceAs (Decidable (_ ∨ _ ∨ _))

theorem wp_growproc (sound : Sound m p.pgdir) (exact_ : p.Exact) (small : p.sz < KERNBASE) (low : -2 ^ 31 ≤ n)
    (high : n < 2 ^ 31) :
    wp (growproc p n) (fun r m' => Servable p.sz n ↔ AllOrNothing m p n m' r.1 r.2) (fun _ => False) m := by
  have base : KERNBASE = 2 ^ 31 := rfl
  have pages := (Proc.exact_iff (le_of_lt small)).mp exact_
  have order := upages_eq
  unfold growproc
  dsimp only
  split
  next grows =>
    have yes : Servable p.sz n := .inl (by omega)
    have newsz : (((p.sz : Int) + n) % 2 ^ 32).toNat = p.sz + n.toNat := by omega
    rw [newsz, wp_bind]
    apply wp_allocuvm (le_of_lt small) sound.usable
    · intro w inside old
      cases present : p.pgdir.lookup w with
      | none => rfl
      | some e =>
        have := (pages w inside).mp (by rw [present]; rfl)
        omega
    · intro _
      exact wp_pure.mpr ⟨fun _ => (Undone.refl m p.pgdir).nothing sound, fun _ => yes⟩
    · intro _ fewer
      omega
    · intro pd' m' undone _
      exact wp_pure.mpr ⟨fun _ => undone.nothing sound, fun _ => yes⟩
    · intro below more pd' m' grown
      refine wp_pure.mpr ⟨fun _ => ?_, fun _ => yes⟩
      have all := grown.all (n := n) sound exact_ more (le_of_lt below) (by omega)
      rw [resize, if_neg (by omega)]
      exact all
  next =>
    split
    next shrinks =>
      rw [wp_bind]
      by_cases wraps : (p.sz : Int) + n < 0
      · have newsz : (((p.sz : Int) + n) % 2 ^ 32).toNat ≥ p.sz := by omega
        rw [deallocuvm, if_pos newsz, wp_pure, wp_pure, resize]
        split
        next zero => exact ⟨fun _ => (Undone.refl m p.pgdir).nothing sound, fun _ => .inr (.inr zero)⟩
        next nonzero =>
          refine iff_of_false (fun servable => ?_) fun all => ?_
          · unfold Servable at servable
            omega
          · have size := all.size rfl
            dsimp only at size
            omega
      · have newsz : (((p.sz : Int) + n) % 2 ^ 32).toNat = p.sz - n.natAbs := by omega
        rw [newsz]
        apply wp_deallocuvm (by omega) (le_of_lt small) (sound.usable.user rfl (add_zero _))
        intro pd' m' freed
        rw [wp_pure, resize]
        split
        next zero =>
          dsimp only at zero
          refine iff_of_false (fun servable => ?_) fun all => ?_
          · unfold Servable at servable
            omega
          · have first : 0 < pagesFor p.sz := by
              rw [← page_lt_iff]
              omega
            have gone := freed.lookup 0 (by decide)
            rw [if_pos ⟨by rw [zero]; exact zero_le _, first⟩] at gone
            have back := (all.nothing rfl).2 0 (by decide)
            dsimp only at back
            rw [Nat.zero_div, gone] at back
            have present := (pages 0 (by decide)).mpr first
            rw [← back] at present
            cases present
        next nonzero =>
          exact ⟨fun _ => freed.all sound exact_ (by omega) (le_of_lt small) (by omega), fun _ => .inr (.inl (by omega))⟩
    next =>
      have same := (Grown.refl m p.pgdir (pagesFor p.sz)).all (n := n) sound exact_ (le_refl _) (le_of_lt small)
        (by omega)
      exact wp_pure.mpr ⟨fun _ => same, fun _ => .inl (by omega)⟩

/-- `growproc` returns, and what it has done is all or nothing if and only if the call is one
that it can serve. -/
theorem growproc_all_or_nothing_iff (sound : Sound m p.pgdir) (exact_ : p.Exact) (small : p.sz < KERNBASE)
    (low : -2 ^ 31 ≤ n) (high : n < 2 ^ 31) :
    ∃ p' r m', (growproc p n).run m = .ok ((p', r), m') ∧ (AllOrNothing m p n m' p' r ↔ Servable p.sz n) := by
  obtain ⟨⟨p', r⟩, m', ran, post⟩ := wp.returns (wp_growproc sound exact_ small low high)
  exact ⟨p', r, m', ran, post.symm⟩

end Grow

/-- Page 1 is the directory, page 2 its only table, and page 3 is mapped at 0. -/
def onePage : Proc where
  pgdir := ⟨1, fun i => if i = 0 then some ⟨2, fun j => if j = 0 then ⟨3, PTE_W ||| PTE_U ||| PTE_P⟩ else Pte.zero⟩ else none⟩
  sz := PGSIZE
  eip := 0
  esp := 0
  name := []

def noMemory : Mem where
  freelist := []
  content := fun _ => Bytes.zero
  kend := PGSIZE
  data := 0

theorem onePage_lookup {w : Nat} (small : w < 2 ^ 20) :
    onePage.pgdir.lookup w = if w = 0 then some ⟨3, PTE_W ||| PTE_U ||| PTE_P⟩ else none := by
  unfold PageDir.lookup PageDir.pte onePage
  dsimp only
  rw [pdx_page small, ptx_page]
  by_cases dir : w / 1024 = 0
  · rw [if_pos dir, Option.map_some]
    dsimp only
    by_cases entry : w % 1024 = 0
    · rw [if_pos entry, if_pos (by omega)]
      rfl
    · rw [if_neg entry, if_neg (by omega)]
      rfl
  · rw [if_neg dir, if_neg (by omega)]
    rfl

theorem onePage_pages : noMemory.pages onePage.pgdir = {2, 3} := by
  have none : ∀ w < UPAGES, w ≠ 0 → onePage.pgdir.lookup w = none := by
    intro w below other
    rw [onePage_lookup (lt_of_lt_of_le below (by decide)), if_neg other]
  have user := gathered_single (g := Pte.ppn) (by decide) (onePage_lookup (by decide)) none
  have missing : ∀ i < NPDENTRIES, i ≠ 0 → onePage.pgdir.table i = Option.none := fun i _ other => if_neg other
  have first : onePage.pgdir.table 0 =
      some ⟨2, fun j => if j = 0 then ⟨3, PTE_W ||| PTE_U ||| PTE_P⟩ else Pte.zero⟩ := rfl
  have tables := gathered_single (g := Table.page) (by decide) first missing
  rw [Mem.pages, PageDir.user, user, PageDir.tables, tables]
  rfl

theorem onePage_sound : Sound noMemory onePage.pgdir := by
  constructor
  · rw [onePage_pages]
    decide
  · rw [onePage_pages]
    intro page member
    rw [insert_eq_cons, mem_cons, mem_singleton] at member
    rcases member with rfl | rfl <;> decide

theorem onePage_exact : onePage.Exact := by
  rw [Proc.exact_iff (by decide)]
  intro w below
  rw [onePage_lookup (lt_of_lt_of_le below (by decide)), show pagesFor onePage.sz = 1 by decide]
  split
  next zero => exact iff_of_true rfl (by omega)
  next other => exact iff_of_false nofun (by omega)

theorem growproc_onePage : ∃ p' r m', (growproc onePage (-2048)).run noMemory = .ok ((p', r), m') ∧
    AllOrNothing noMemory onePage (-2048) m' p' r := by
  obtain ⟨p', r, m', ran, all⟩ := growproc_all_or_nothing_iff (n := -2048) onePage_sound onePage_exact (by decide) (by decide)
    (by decide)
  exact ⟨p', r, m', ran, all.mpr (by decide)⟩

theorem growproc_to_zero : ∃ p' m', (growproc onePage (-4096)).run noMemory = .ok ((p', -1), m') ∧
    p'.sz = 4096 ∧ (onePage.pgdir.lookup 0).isSome = true ∧ p'.pgdir.lookup 0 = none ∧
    ¬ AllOrNothing noMemory onePage (-4096) m' p' (-1) := by
  have here : (onePage.pgdir.lookup 0).isSome = true := by
    rw [onePage_lookup (by decide)]
    rfl
  have spec : wp (growproc onePage (-4096)) (fun r _ => r.2 = -1 ∧ r.1.sz = 4096 ∧ r.1.pgdir.lookup 0 = none)
      (fun _ => False) noMemory := by
    unfold growproc
    dsimp only
    have newsz : (((onePage.sz : Int) + -4096) % 2 ^ 32).toNat = 0 := by decide
    rw [if_neg (by decide), if_pos (by decide), wp_bind, newsz]
    apply wp_deallocuvm (by decide) (by decide) (onePage_sound.usable.user rfl (add_zero _))
    intro pd' m' freed
    rw [wp_pure, resize, if_pos rfl]
    refine ⟨rfl, rfl, ?_⟩
    rw [freed.lookup 0 (by decide), if_pos (by decide)]
  obtain ⟨⟨p', r⟩, m', ran, result, size, gone⟩ := wp.returns spec
  dsimp only at result size gone
  subst result
  refine ⟨p', m', ran, size, here, gone, fun all => ?_⟩
  have back := (all.nothing rfl).2 0 (by decide)
  rw [Nat.zero_div, gone] at back
  rw [← back] at here
  cases here

/-- `deallocuvm` frees the pages of the range once each and clears their entries, and no others. -/
theorem deallocuvm_exact {m : Mem} {pd : PageDir} {oldsz newsz : Nat} (smaller : newsz < oldsz) (small : oldsz ≤ KERNBASE)
    (takes : ∀ w, pgroundup newsz ≤ PGSIZE * w → PGSIZE * w < oldsz →
      ∀ e, pd.lookup w = some e → m.Valid e.ppn ∧ e.ppn ≠ 0) :
    ∃ pd' m', (deallocuvm pd oldsz newsz).run m = .ok ((pd', newsz), m') ∧
      (m'.freelist : Multiset Nat) = m.freelist + gathered UPAGES
        (fun w => if pgroundup newsz ≤ PGSIZE * w ∧ PGSIZE * w < oldsz then pd.lookup w else none) Pte.ppn ∧
      ∀ w < 2 ^ 20, pd'.pte (PGSIZE * w) =
        if pgroundup newsz ≤ PGSIZE * w ∧ PGSIZE * w < oldsz ∧ (pd.lookup w).isSome = true then some Pte.zero
        else pd.pte (PGSIZE * w) := by
  have low : ∀ w, pgroundup newsz ≤ PGSIZE * w ↔ pagesFor newsz ≤ w := by
    intro w
    rw [pgroundup_eq (by omega)]
    exact Nat.mul_le_mul_left_iff (by decide)
  simp only [low, page_lt_iff] at takes ⊢
  have spec : wp (deallocuvm pd oldsz newsz) (fun r m' => r.2 = newsz ∧
      Freed m m' pd r.1 (pagesFor newsz) (pagesFor oldsz) ∧ Cleared pd r.1 (pagesFor newsz) (pagesFor oldsz))
      (fun _ => False) m := wp_deallocuvm_range smaller small takes fun _ _ freed cleared => ⟨rfl, freed, cleared⟩
  obtain ⟨⟨pd', r⟩, m', ran, rfl, freed, cleared⟩ := wp.returns spec
  refine ⟨pd', m', ran, ?_, cleared⟩
  have order := upages_le
  have user : pd'.user = gathered UPAGES _ Pte.ppn := gathered_congr fun w below => freed.lookup w (by omega)
  have all := gathered_split (n := UPAGES) (f := pd.lookup) (g := Pte.ppn) fun w => pagesFor r ≤ w ∧ w < pagesFor oldsz
  have pages := freed.pages
  rw [user, PageDir.user, all, ← add_assoc, add_right_comm] at pages
  exact add_right_cancel pages

theorem deallocuvm_onePage : ∃ pd' m', (deallocuvm onePage.pgdir 4096 0).run noMemory = .ok ((pd', 0), m') ∧
    pd'.pte 0 = some Pte.zero := by
  have takes : ∀ w, pgroundup 0 ≤ PGSIZE * w → PGSIZE * w < 4096 →
      ∀ e, onePage.pgdir.lookup w = some e → noMemory.Valid e.ppn ∧ e.ppn ≠ 0 := by
    intro w _ high e there
    obtain rfl : w = 0 := by
      unfold PGSIZE at high
      omega
    rw [onePage_lookup (by decide)] at there
    cases there
    decide
  obtain ⟨pd', m', ran, -, entries⟩ := deallocuvm_exact (by decide) (by decide) takes
  refine ⟨pd', m', ran, (entries 0 (by decide)).trans (if_pos ⟨by decide, by decide, ?_⟩)⟩
  rw [onePage_lookup (by decide)]
  rfl

end Xv6.Vm
