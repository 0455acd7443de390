import Mathlib.Order.Interval.Finset.Nat
import Xv6.Vm.Grow

/-! A new page directory: what `setupkvm` puts in it, and how `freevm` gives all of it back. -/

namespace Xv6.Vm
open Lib Option
open Finset (card_range card_union_of_disjoint disjoint_left mem_Ico mem_filter mem_range mem_union)
open Multiset (card_add card_singleton card_zero coe_card coe_nodup cons_coe mem_add mem_coe mem_of_le mem_singleton nodup_add singleton_add)

variable {post : Unit → Mem → Prop}

section Freevm

variable {m m' : Mem} {pd pd' : PageDir} {stop : Stop → Prop}

theorem wp_freeTables (usable : m.Usable pd.tables)
    (done : ∀ m', m' = { m with freelist := m'.freelist, content := m'.content } →
      (m'.freelist : Multiset Nat) = m.freelist + pd.tables →
      (∀ page, page ∉ m'.freelist → m'.content page = m.content page) → post () m') :
    wp (freeTables pd) post stop m := by
  let inv (i : Nat) (m' : Mem) : Prop := m' = { m with freelist := m'.freelist, content := m'.content } ∧
    (m'.freelist : Multiset Nat) = m.freelist + gathered i pd.table Table.page ∧
    ∀ page, page ∉ m'.freelist → m'.content page = m.content page
  have whole : wp (freeTables pd) (fun _ m' => inv NPDENTRIES m') stop m := by
    unfold freeTables
    apply wp_forM_range inv NPDENTRIES
    · intro i inside t ⟨frame, list, content⟩
      cases slot : pd.table i with
      | none =>
        refine wp_pure.mpr ⟨frame, ?_, content⟩
        rw [list, gathered_succ, slot, elim_none, add_zero]
      | some table =>
        have valid := usable table.page (mem_gathered.mpr ⟨i, by omega, table, slot, rfl⟩)
        apply wp_kfree
        · rw [frame]
          exact valid.1
        · refine ⟨by rw [frame], ?_, ?_⟩
          · rw [gathered_succ, slot, elim_some, ← cons_coe, list, ← singleton_add]
            abel
          · intro page away
            have other : page ≠ table.page := fun same => away (same ▸ List.mem_cons_self)
            dsimp only
            rw [Function.update_of_ne other]
            exact content page fun here => away (List.mem_cons_of_mem _ here)
    · refine ⟨rfl, ?_, fun _ _ => rfl⟩
      rw [gathered_zero, add_zero]
  refine wp_mono whole (fun _ m' here => ?_) fun _ stopped => stopped
  obtain ⟨frame, list, content⟩ := here
  exact done m' frame list content

theorem wp_freevm (usable : m.Usable (m.pages pd + {pd.page}))
    (done : ∀ m', m' = { m with freelist := m'.freelist, content := m'.content } →
      (m'.freelist : Multiset Nat) = m.pages pd + {pd.page} →
      (∀ page, page ∉ m'.freelist → m'.content page = m.content page) → post () m') :
    wp (freevm pd) post stop m := by
  have all : ∀ page, page ∈ m.pages pd ∨ page = pd.page → m.Valid page ∧ page ≠ 0 := fun page here =>
    usable page (mem_add.mpr (here.imp_right mem_singleton.mpr))
  unfold freevm
  rw [wp_bind]
  have users : m.Usable pd.user := fun page member => all page (.inl (mem_add.mpr (.inr member)))
  apply wp_deallocuvm (by decide) (le_refl _) users
  intro pd₁ m₁ freed
  have none : pd₁.user = 0 := by
    apply gathered_empty
    intro w inside
    rw [freed.lookup w (Nat.lt_of_lt_of_le inside (by decide)), if_pos ⟨Nat.zero_le w, inside⟩]
  have list := freed.pages
  rw [none, add_zero] at list
  dsimp only
  rw [wp_bind]
  apply wp_freeTables
  · intro page member
    rw [freed.tables] at member
    rw [freed.frame]
    exact all page (.inl (mem_add.mpr (.inl (mem_add.mpr (.inr member)))))
  · intro m₂ frame list' content
    apply wp_kfree
    · rw [frame, freed.frame, freed.page]
      exact (all pd.page (.inr rfl)).1
    · apply done
      · rw [frame, freed.frame]
      · rw [freed.page, ← cons_coe, list', list, freed.tables, Mem.pages, ← singleton_add]
        abel
      · intro page away
        have other : page ≠ pd₁.page := fun same => away (same ▸ List.mem_cons_self)
        have later : page ∉ m₂.freelist := fun here => away (List.mem_cons_of_mem _ here)
        have sooner : page ∉ m₁.freelist := by
          intro here
          apply later
          rw [← mem_coe, list']
          exact mem_add.mpr (.inl (mem_coe.mpr here))
        dsimp only
        rw [Function.update_of_ne other, content page later, freed.content page sooner]

end Freevm

def Mem.Linked (m : Mem) : Prop := m.data % PGSIZE = 0 ∧ EXTMEM < m.data ∧ m.data < PHYSTOP

instance (m : Mem) : Decidable m.Linked := inferInstanceAs (Decidable (_ ∧ _ ∧ _))

def tablesFor (count : Nat) : Nat := (count + NPTENTRIES - 1) / NPTENTRIES

/-- The page tables that a directory with `count` pages of user memory needs. -/
def HasTable (count i : Nat) : Prop :=
  i < tablesFor count ∨ (pdx KERNBASE ≤ i ∧ i < pdx (KERNBASE + PHYSTOP)) ∨ (pdx DEVSPACE ≤ i ∧ i < NPDENTRIES)

instance (count i : Nat) : Decidable (HasTable count i) := inferInstanceAs (Decidable (_ ∨ _ ∨ _))

theorem hasTable_iff (count i : Nat) :
    HasTable count i ↔ (∃ w < count, w / 1024 = i) ∨ (512 ≤ i ∧ i < 568) ∨ (1016 ≤ i ∧ i < 1024) := by
  have user : i < tablesFor count ↔ ∃ w < count, w / 1024 = i := by
    unfold tablesFor NPTENTRIES
    constructor
    · intro below
      exact ⟨1024 * i, by omega, by omega⟩
    · rintro ⟨w, below, rfl⟩
      omega
  rw [HasTable, user]
  rfl

def pagesNeeded (count : Nat) : Nat := 1 + (tablesFor count + 64) + count

def tableSet (count : Nat) : Finset Nat := Finset.range (tablesFor count) ∪ (Finset.Ico 512 568 ∪ Finset.Ico 1016 1024)

theorem mem_tableSet (count i : Nat) : i ∈ tableSet count ↔ HasTable count i := by
  rw [tableSet, mem_union, mem_union, mem_range, mem_Ico, mem_Ico]
  rfl

variable {count : Nat}

theorem tablesFor_le (top : count ≤ UPAGES) : tablesFor count ≤ 512 := by
  have order := upages_eq
  unfold tablesFor NPTENTRIES
  omega

theorem card_tableSet (top : count ≤ UPAGES) : (tableSet count).card = tablesFor count + 64 := by
  have few := tablesFor_le top
  rw [tableSet, card_union_of_disjoint, card_union_of_disjoint, card_range, Nat.card_Ico, Nat.card_Ico]
  · rw [disjoint_left]
    intro i first second
    rw [mem_Ico] at first second
    omega
  · rw [disjoint_left]
    intro i first second
    rw [mem_range] at first
    rw [mem_union, mem_Ico, mem_Ico] at second
    omega

structure Space (pd : PageDir) (count : Nat) : Prop where
  tables : ∀ i, (pd.table i).isSome = true ↔ HasTable count i
  kernel : ∀ w, UPAGES ≤ w → w < 2 ^ 20 → ∀ e, pd.lookup w = some e → e.user = false
  user : ∀ w < count, ∃ page, pd.lookup w = some ⟨page, PTE_W ||| PTE_U ||| PTE_P⟩
  absent : ∀ w, count ≤ w → w < UPAGES → pd.lookup w = none

/-- The directory is built from pages that were free in `m`. -/
structure Building (m m' : Mem) (pd : PageDir) : Prop where
  frame : m' = { m with freelist := m'.freelist, content := m'.content }
  pages : m'.pages pd + {pd.page} = m.freelist
  content : ∀ page, page ∉ m.freelist → m'.content page = m.content page

/-- The free pages are those of `m`, and the others have kept their contents. -/
structure Restored (m m' : Mem) : Prop where
  frame : m' = { m with freelist := m'.freelist, content := m'.content }
  freelist : (m'.freelist : Multiset Nat) = m.freelist
  content : ∀ page, page ∉ m.freelist → m'.content page = m.content page

section Setup

variable {m m' m'' : Mem} {pd pd' : PageDir} {stop : Stop → Prop}

theorem Building.freelist_le (building : Building m m' pd) : (m'.freelist : Multiset Nat) ≤ m.freelist := by
  rw [← building.pages, Mem.pages, add_assoc, add_assoc]
  exact Multiset.le_add_right ..

theorem Building.usable (building : Building m m' pd) (usable : m.Usable m.freelist) :
    m'.Usable (m'.pages pd + {pd.page}) := by
  intro page member
  rw [building.pages] at member
  rw [building.frame]
  exact usable page member

theorem Building.sound (building : Building m m' pd) (nodup : m.freelist.Nodup) (usable : m.Usable m.freelist) :
    Sound m' pd := by
  have whole : (m'.pages pd + {pd.page}).Nodup := by
    rw [building.pages]
    exact coe_nodup.mpr nodup
  exact ⟨(nodup_add.mp whole).1, fun page member => building.usable usable page (mem_add.mpr (.inl member))⟩

theorem Building.step (building : Building m m' pd)
    (frame : m'' = { m' with freelist := m''.freelist, content := m''.content }) (pages : m''.pages pd' = m'.pages pd)
    (page : pd'.page = pd.page) (content : ∀ page, page ∉ m'.freelist → m''.content page = m'.content page) :
    Building m m'' pd' where
  frame := by
    rw [building.frame] at frame
    exact frame
  pages := by rw [pages, page, building.pages]
  content := by
    intro there away
    have gone : there ∉ m'.freelist := fun here =>
      away (mem_coe.mp (mem_of_le building.freelist_le (mem_coe.mpr here)))
    rw [content there gone, building.content there away]

theorem Building.wp_freevm (building : Building m m' pd) (usable : m.Usable m.freelist)
    (done : ∀ m'', Restored m m'' → post () m'') : wp (freevm pd) post stop m' := by
  apply Vm.wp_freevm (building.usable usable)
  intro m'' frame list content
  rw [building.pages] at list
  refine done m'' ⟨?_, list, fun page away => ?_⟩
  · rw [building.frame] at frame
    exact frame
  · have gone : page ∉ m''.freelist := fun here => away (by rw [← mem_coe, ← list]; exact mem_coe.mpr here)
    rw [content page gone, building.content page away]

theorem wp_mapKernel_cons {post : PageDir × Bool → Mem → Prop} {line : Kmap} {rest : List Kmap} (v q k : Nat)
    (virt : line.virt = PGSIZE * v) (phys : line.physStart = PGSIZE * q)
    (size : (line.physEnd + 2 ^ 32 - line.physStart) % 2 ^ 32 = PGSIZE * (k + 1)) (small : v + k < 2 ^ 20)
    (memory : q + k < 2 ^ 20) (absent : ∀ w, v ≤ w → w ≤ v + k → pd.lookup w = none)
    (failed : ∀ pd' m', Walked m m' pd pd' → m'.freelist = [] → Within pd pd' v (k + 1) →
      (∀ w < v, pd'.lookup w = pd.lookup w) → post (pd', false) m')
    (done : ∀ pd' m', Walked m m' pd pd' → Tabled pd pd' v (k + 1) → Maps pd pd' v q (k + 1) line.perm →
      wp (mapKernel pd' rest) post stop m') : wp (mapKernel pd (line :: rest)) post stop m := by
  have first : pgrounddown line.virt = PGSIZE * v := by
    rw [virt]
    unfold pgrounddown PGSIZE
    omega
  have last : pgrounddown ((line.virt + PGSIZE * (k + 1) + 2 ^ 32 - 1) % 2 ^ 32) = PGSIZE * (v + k) := by
    rw [virt]
    unfold pgrounddown PGSIZE
    omega
  unfold mapKernel mappages
  rw [size, first, last, phys, wp_bind]
  apply wp_mappagesFrom (2 ^ 20) v q k line.perm (by omega) small memory absent
  · intro pd' m' j bound walked empty within _ maps
    refine wp_pure.mpr (failed pd' m' walked empty (fun i there => ?_) fun w below => ?_)
    · exact (within i there).imp_right fun ⟨w, low, high, dir⟩ => ⟨w, low, by omega, dir⟩
    · rw [maps w (by omega), if_neg (by omega)]
  · exact done

theorem user_kernel (page : Nat) : (⟨page, 0 ||| PTE_P⟩ : Pte).user = false ∧ (⟨page, PTE_W ||| PTE_P⟩ : Pte).user = false :=
  ⟨by simp [Pte.user, PTE_P, PTE_U], by simp [Pte.user, PTE_P, PTE_U, PTE_W]⟩

theorem wp_mapKernel_kmap {post : PageDir × Bool → Mem → Prop} (linked : m.Linked) (bare : ∀ i, pd.table i = none)
    (failed : ∀ pd' m', Walked m m' pd pd' → m'.freelist = [] → (∀ i, (pd'.table i).isSome = true → HasTable 0 i) →
      (∀ w < UPAGES, pd'.lookup w = none) → post (pd', false) m')
    (done : ∀ pd' m', Walked m m' pd pd' → Space pd' 0 → post (pd', true) m') :
    wp (mapKernel pd (kmap m.data)) post stop m := by
  obtain ⟨aligned, low, high⟩ := linked
  obtain ⟨d, data⟩ := Nat.dvd_of_mod_eq_zero aligned
  rw [data] at low high ⊢
  have text : 0x100 < d := by
    unfold EXTMEM PGSIZE at low
    omega
  have top : d < 0xE000 := by
    unfold PHYSTOP PGSIZE at high
    omega
  have users : UPAGES = 0x80000 := by decide
  have nothing : ∀ w, pd.lookup w = none := by
    intro w
    rw [PageDir.lookup, PageDir.pte, bare]
    rfl
  have none : ∀ i, (pd.table i).isSome = true → HasTable 0 i := by
    intro i there
    rw [bare i] at there
    cases there
  -- the tables of the pages from `v` on, if these are the kernel's
  have add : ∀ {pd₁ pd₂ : PageDir} {v k : Nat}, (∀ i, (pd₁.table i).isSome = true → HasTable 0 i) →
      (0x80000 ≤ v ∧ v + k < 0x8E000 ∨ 0xFE000 ≤ v ∧ v + k < 0x100000) → Within pd₁ pd₂ v (k + 1) →
      ∀ i, (pd₂.table i).isSome = true → HasTable 0 i := by
    intro pd₁ pd₂ v k before kernel within i there
    rcases within i there with old | ⟨w, low, high, rfl⟩
    · exact before i old
    · rw [hasTable_iff]
      omega
  unfold kmap
  apply wp_mapKernel_cons 0x80000 0 0xFF (by decide) (by decide) (by decide) (by decide) (by decide) fun w _ _ => nothing w
  · intro pd' m' walked empty within same
    exact failed pd' m' walked empty (add none (by omega) within) fun w below => (same w (by omega)).trans (nothing w)
  intro pd₁ m₁ walked₁ tabled₁ maps₁
  have first := add none (by omega) fun i => (tabled₁ i).mp
  apply wp_mapKernel_cons 0x80100 0x100 (d - 0x101) rfl rfl
    (by unfold KERNLINK KERNBASE EXTMEM PGSIZE; dsimp only; omega) (by omega) (by omega)
  · intro w start below
    rw [maps₁ w (by omega), if_neg (by omega), nothing w]
  · intro pd' m' walked empty within same
    refine failed pd' m' (walked₁.trans walked) empty (add first (by omega) within) fun w below => ?_
    rw [same w (by omega), maps₁ w (by omega), if_neg (by omega), nothing w]
  intro pd₂ m₂ walked₂ tabled₂ maps₂
  have second := add first (by omega) fun i => (tabled₂ i).mp
  apply wp_mapKernel_cons (0x80000 + d) d (0xDFFF - d) (by unfold KERNBASE PGSIZE; dsimp only; omega) rfl
    (by unfold PHYSTOP PGSIZE; dsimp only; omega) (by omega) (by omega)
  · intro w start below
    rw [maps₂ w (by omega), if_neg (by omega), maps₁ w (by omega), if_neg (by omega), nothing w]
  · intro pd' m' walked empty within same
    refine failed pd' m' ((walked₁.trans walked₂).trans walked) empty (add second (by omega) within) fun w below => ?_
    rw [same w (by omega), maps₂ w (by omega), if_neg (by omega), maps₁ w (by omega), if_neg (by omega), nothing w]
  intro pd₃ m₃ walked₃ tabled₃ maps₃
  have third := add second (by omega) fun i => (tabled₃ i).mp
  apply wp_mapKernel_cons 0xFE000 0xFE000 0x1FFF (by decide) (by decide) (by decide) (by decide) (by decide)
  · intro w start below
    rw [maps₃ w (by omega), if_neg (by omega), maps₂ w (by omega), if_neg (by omega), maps₁ w (by omega),
      if_neg (by omega), nothing w]
  · intro pd' m' walked empty within same
    refine failed pd' m' (((walked₁.trans walked₂).trans walked₃).trans walked) empty (add third (by omega) within)
      fun w below => ?_
    rw [same w (by omega), maps₃ w (by omega), if_neg (by omega), maps₂ w (by omega), if_neg (by omega),
      maps₁ w (by omega), if_neg (by omega), nothing w]
  intro pd₄ m₄ walked₄ tabled₄ maps₄
  refine wp_pure.mpr (done pd₄ m₄ (((walked₁.trans walked₂).trans walked₃).trans walked₄) ?_)
  constructor
  case tables =>
    intro i
    rw [tabled₄ i, tabled₃ i, tabled₂ i, tabled₁ i, bare i, hasTable_iff]
    constructor
    · rintro ((((none | ⟨w, start, below, rfl⟩) | ⟨w, start, below, rfl⟩) | ⟨w, start, below, rfl⟩) | ⟨w, start, below, rfl⟩)
      · cases none
      · omega
      · omega
      · omega
      · omega
    · rintro (⟨w, below, -⟩ | ⟨start, below⟩ | ⟨start, below⟩)
      · omega
      · by_cases early : 1024 * i + 1023 < 0x80000 + d
        · by_cases text : 1024 * i < 0x80100
          · exact .inl (.inl (.inl (.inr ⟨1024 * i, by omega, by omega, by omega⟩)))
          · exact .inl (.inl (.inr ⟨1024 * i, by omega, by omega, by omega⟩))
        · exact .inl (.inr ⟨1024 * i + 1023, by omega, by omega, by omega⟩)
      · exact .inr ⟨1024 * i, by omega, by omega, by omega⟩
  case kernel =>
    intro w start below e mapped
    rw [maps₄ w below, maps₃ w below, maps₂ w below, maps₁ w below, nothing w] at mapped
    split at mapped
    · obtain rfl := some.inj mapped
      exact (user_kernel _).2
    · split at mapped
      · obtain rfl := some.inj mapped
        exact (user_kernel _).2
      · split at mapped
        · obtain rfl := some.inj mapped
          exact (user_kernel _).1
        · split at mapped
          · obtain rfl := some.inj mapped
            exact (user_kernel _).2
          · cases mapped
  case user =>
    intro w below
    omega
  case absent =>
    intro w _ below
    rw [maps₄ w (by omega), if_neg (by omega), maps₃ w (by omega), if_neg (by omega), maps₂ w (by omega),
      if_neg (by omega), maps₁ w (by omega), if_neg (by omega), nothing w]

theorem wp_setupkvm {post : Option PageDir → Mem → Prop} (usable : m.Usable m.freelist) (linked : m.Linked)
    (failed : ∀ m', Restored m m' → m.freelist.length ≤ pagesNeeded 0 → post none m')
    (done : ∀ pd m', Building m m' pd → Space pd 0 → post (some pd) m') : wp setupkvm post stop m := by
  unfold setupkvm
  rw [wp_bind]
  apply wp_kalloc
  · intro list
    exact wp_pure.mpr (failed m ⟨rfl, rfl, fun _ _ => rfl⟩ (by rw [list]; exact Nat.zero_le _))
  · intro page rest list
    dsimp only
    rw [if_neg (by decide), wp_bind, wp_get, wp_bind]
    have empty : (⟨page, fun _ => none⟩ : PageDir).tables = 0 := gathered_empty fun _ _ => rfl
    have built : ∀ pd m', Walked { m with freelist := rest } m' ⟨page, fun _ => none⟩ pd → (∀ w < UPAGES, pd.lookup w = none) →
        Building m m' pd := by
      intro pd m' walked nothing
      have user : pd.user = 0 := gathered_empty nothing
      refine ⟨?_, ?_, fun there _ => ?_⟩
      · have frame := walked.frame
        rw [frame]
      · have spare := walked.spare
        rw [empty, add_zero] at spare
        rw [Mem.pages, user, add_zero, spare, walked.page, list, ← cons_coe, ← singleton_add]
        exact add_comm ..
      · rw [walked.frame]
    apply wp_mapKernel_kmap (m := { m with freelist := rest }) linked fun _ => rfl
    · intro pd m' walked none within nothing
      have building := built pd m' walked nothing
      dsimp only
      rw [wp_bind]
      apply building.wp_freevm usable
      intro m'' restored
      refine wp_pure.mpr (failed m'' restored ?_)
      have cards := congrArg Multiset.card walked.spare
      have tables := PageDir.card_tables_le fun i there => (mem_tableSet 0 i).mpr (within i there)
      rw [empty, none] at cards
      simp only [card_add, coe_card, card_zero, List.length_nil] at cards
      rw [card_tableSet (Nat.zero_le _)] at tables
      rw [list, List.length_cons, pagesNeeded]
      omega
    · intro pd m' walked space
      exact wp_pure.mpr (done pd m' (built pd m' walked fun w below => space.absent w (Nat.zero_le w) below) space)

variable {lo hi : Nat}

theorem Building.grown (building : Building m m' pd) (grown : Grown m' m'' pd pd' lo hi) : Building m m'' pd' :=
  building.step grown.frame grown.pages grown.page grown.content

theorem Building.undone (building : Building m m' pd) (undone : Undone m' m'' pd pd' 0) : Building m m'' pd' :=
  building.step undone.frame (by rw [← undone.pages, add_zero]) undone.page undone.content

theorem Space.grown (space : Space pd lo) (order : lo ≤ hi) (top : hi ≤ UPAGES) (grown : Grown m m' pd pd' lo hi) :
    Space pd' hi where
  tables := by
    intro i
    rw [grown.tabled i, space.tables i, Nat.add_sub_cancel' order, hasTable_iff, hasTable_iff]
    constructor
    · rintro ((⟨w, below, dir⟩ | other) | ⟨w, low, below, dir⟩)
      · exact .inl ⟨w, by omega, dir⟩
      · exact .inr other
      · exact .inl ⟨w, below, dir⟩
    · rintro (⟨w, below, dir⟩ | other)
      · by_cases old : w < lo
        · exact .inl (.inl ⟨w, old, dir⟩)
        · exact .inr ⟨w, by omega, below, dir⟩
      · exact .inl (.inr other)
  kernel := by
    intro w low below e mapped
    rw [grown.lookup w below (by omega)] at mapped
    exact space.kernel w low below e mapped
  user := by
    have order := upages_le
    intro w below
    by_cases old : w < lo
    · rw [grown.lookup w (by omega) (by omega)]
      exact space.user w old
    · obtain ⟨page, -, mapped, -⟩ := grown.fresh w (by omega) below
      exact ⟨page, mapped⟩
  absent := by
    have order := upages_le
    intro w high below
    rw [grown.lookup w (by omega) (by omega)]
    exact space.absent w (by omega) below

theorem Space.card_tables (space : Space pd count) (top : count ≤ UPAGES) :
    pd.tables.card = tablesFor count + 64 := by
  have order := upages_eq
  have present : (Finset.range NPDENTRIES).filter (fun i => (pd.table i).isSome = true) = tableSet count := by
    ext i
    rw [mem_filter, mem_range, space.tables i, mem_tableSet, and_iff_right_iff_imp, hasTable_iff]
    unfold NPDENTRIES
    rintro (⟨w, below, rfl⟩ | other | other) <;> omega
  rw [PageDir.tables, card_gathered, present, card_tableSet top]

theorem Space.card_user (space : Space pd count) (top : count ≤ UPAGES) : pd.user.card = count := by
  have present : (Finset.range UPAGES).filter (fun w => (pd.lookup w).isSome = true) = Finset.range count := by
    ext w
    rw [mem_filter, mem_range, mem_range]
    constructor
    · rintro ⟨below, there⟩
      by_contra high
      rw [space.absent w (by omega) below] at there
      cases there
    · intro below
      obtain ⟨page, mapped⟩ := space.user w below
      exact ⟨by omega, by rw [mapped]; rfl⟩
  rw [PageDir.user, card_gathered, present, card_range]

theorem Building.card (building : Building m m' pd) (space : Space pd count) (top : count ≤ UPAGES) :
    m'.freelist.length + pagesNeeded count = m.freelist.length := by
  have cards := congrArg Multiset.card building.pages
  rw [Mem.pages] at cards
  simp only [card_add, coe_card, card_singleton, space.card_tables top, space.card_user top] at cards
  rw [pagesNeeded]
  omega

theorem tablesFor_mono (order : lo ≤ hi) : tablesFor lo ≤ tablesFor hi := by
  unfold tablesFor NPTENTRIES
  omega

theorem pagesNeeded_mono (order : lo ≤ hi) : pagesNeeded lo ≤ pagesNeeded hi := by
  have := tablesFor_mono order
  unfold pagesNeeded
  omega

theorem Building.short (building : Building m m' pd) (space : Space pd lo) (order : lo ≤ hi) (top : hi ≤ UPAGES)
    (short : Short m' pd lo hi) : m.freelist.length < pagesNeeded hi := by
  have more := tablesFor_mono order
  have fewer := short (tableSet hi)
    (fun i there => by
      rw [mem_tableSet]
      exact ((space.tables i).mp there).imp_left fun below => by omega)
    (fun w low high => by
      rw [mem_tableSet, hasTable_iff]
      exact .inl ⟨w, high, rfl⟩)
  have total := building.card space (order.trans top)
  rw [space.card_tables (order.trans top), card_tableSet top] at fewer
  unfold pagesNeeded at total ⊢
  omega

end Setup

end Xv6.Vm
