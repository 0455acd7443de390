import Mathlib.Tactic.Abel
import Xv6.Lib.Sum
import Xv6.Vm.Model

/-! A page directory as a map from pages to present entries, what each function of `vm.c` does to
it, and where the pages of the allocator go. -/

variable {page : Nat}

variable {pd : PageDir} {v w : Nat} {e : Pte}

namespace Xv6.Vm
open Lib Function

/-- The present entry of page `v`. -/
def PageDir.lookup (pd : PageDir) (v : Nat) : Option Pte := (pd.pte (PGSIZE * v)).filter (·.present)

def PageDir.tables (pd : PageDir) : Multiset Nat := gathered NPDENTRIES pd.table Table.page

def PageDir.user (pd : PageDir) : Multiset Nat := gathered UPAGES pd.lookup Pte.ppn

section Entries

variable {old : Pte}

theorem present_zero : Pte.zero.present = false := by decide

theorem present_or (ppn : Nat) (perm : BitVec 12) : (⟨ppn, perm ||| PTE_P⟩ : Pte).present = true := by
  have bit : ((perm ||| PTE_P) &&& PTE_P).getLsbD 0 = true := by
    simp [PTE_P]
  rw [Pte.present, decide_eq_true_iff]
  intro zero
  rw [zero] at bit
  cases bit

theorem PageDir.lookup_eq_some (there : pd.pte (PGSIZE * v) = some e) (present : e.present = true) :
    pd.lookup v = some e := by
  rw [lookup, there, Option.filter_some, if_pos present]

theorem PageDir.lookup_eq_none (there : pd.pte (PGSIZE * v) = some e) (absent : e.present = false) :
    pd.lookup v = none := by
  rw [lookup, there, Option.filter_some, absent]
  rfl

theorem PageDir.pte_setPte (smallV : v < 2 ^ 20) (smallW : w < 2 ^ 20) (there : pd.pte (PGSIZE * v) = some old) :
    (pd.setPte (PGSIZE * v) e).pte (PGSIZE * w) = if w = v then some e else pd.pte (PGSIZE * w) := by
  obtain ⟨table, here, -⟩ := Option.map_eq_some_iff.mp there
  rw [setPte, here]
  unfold pte
  dsimp only
  by_cases same : w = v
  · subst same
    simp only [update_self, if_true, Option.map_some]
  · rw [if_neg same]
    by_cases dir : pdx (PGSIZE * w) = pdx (PGSIZE * v)
    · have apart : ptx (PGSIZE * w) ≠ ptx (PGSIZE * v) := fun entry => same (page_eq smallW smallV dir entry)
      rw [dir, update_self, here, Option.map_some, Option.map_some]
      exact congrArg some (update_of_ne apart ..)
    · rw [update_of_ne dir]

theorem PageDir.lookup_setPte (smallV : v < 2 ^ 20) (smallW : w < 2 ^ 20) (there : pd.pte (PGSIZE * v) = some old) :
    (pd.setPte (PGSIZE * v) e).lookup w = if w = v then (if e.present then some e else none) else pd.lookup w := by
  rw [lookup, pte_setPte smallV smallW there, lookup]
  split
  next => exact Option.filter_some
  next => rfl

theorem PageDir.tables_setPte (pd : PageDir) (va : Nat) (e : Pte) : (pd.setPte va e).tables = pd.tables := by
  unfold setPte
  split
  next => rfl
  next table here =>
    have change := gathered_change (g := Table.page) (pdx_lt va) fun j _ (apart : j ≠ pdx va) =>
      update_of_ne apart (some { table with entry := update table.entry (ptx va) e }) pd.table
    rw [here, update_self] at change
    exact add_right_cancel change

theorem PageDir.page_setPte (pd : PageDir) (va : Nat) (e : Pte) : (pd.setPte va e).page = pd.page := by
  unfold setPte
  split <;> rfl

theorem PageDir.table_setPte (pd : PageDir) (va i : Nat) (e : Pte) :
    ((pd.setPte va e).table i).isSome = (pd.table i).isSome := by
  unfold setPte
  split
  next => rfl
  next table here =>
    dsimp only
    by_cases same : i = pdx va
    · rw [same, update_self, here]
      rfl
    · rw [update_of_ne same]

def PageDir.addTable (pd : PageDir) (i page : Nat) : PageDir :=
  { pd with table := Function.update pd.table i (some ⟨page, fun _ => Pte.zero⟩) }

variable {i : Nat}

theorem PageDir.tables_addTable (page : Nat) (inside : i < NPDENTRIES) (missing : pd.table i = none) :
    (pd.addTable i page).tables = pd.tables + {page} :=
  gathered_fill inside missing (update_self ..) fun _ _ apart => update_of_ne apart ..

theorem PageDir.lookup_addTable (missing : pd.table i = none) : (pd.addTable i page).lookup w = pd.lookup w := by
  unfold lookup pte addTable
  dsimp only
  by_cases same : pdx (PGSIZE * w) = i
  · rw [same, update_self, missing, Option.map_some, Option.filter_some, present_zero]
    rfl
  · rw [update_of_ne same]

end Entries

end Xv6.Vm

namespace Xv6.Vm
open Lib Function
open Multiset (card_add card_singleton card_zero coe_card cons_coe mem_add mem_coe mem_of_le mem_singleton_self singleton_add)

variable {pd' pd'' : PageDir} {m m' m'' : Mem} {stop : Stop → Prop}

section Walk

/-- Page tables were added, in pages of the free list. -/
structure Walked (m m' : Mem) (pd pd' : PageDir) : Prop where
  frame : m' = { m with freelist := m'.freelist }
  suffix : m'.freelist <:+ m.freelist
  spare : (m'.freelist : Multiset Nat) + pd'.tables = m.freelist + pd.tables
  more : pd.tables ≤ pd'.tables
  page : pd'.page = pd.page

theorem Walked.refl (m : Mem) (pd : PageDir) : Walked m m pd pd :=
  ⟨rfl, List.suffix_refl _, rfl, le_refl _, rfl⟩

theorem Walked.trans (first : Walked m m' pd pd') (second : Walked m' m'' pd' pd'') : Walked m m'' pd pd'' where
  frame := by
    have last := second.frame
    rw [first.frame] at last
    exact last
  suffix := second.suffix.trans first.suffix
  spare := second.spare.trans first.spare
  more := first.more.trans second.more
  page := second.page.trans first.page

theorem Walked.setPte (walked : Walked m m' pd pd') (va : Nat) (e : Pte) : Walked m m' pd (pd'.setPte va e) where
  frame := walked.frame
  suffix := walked.suffix
  spare := by rw [PageDir.tables_setPte, walked.spare]
  more := by rw [PageDir.tables_setPte]; exact walked.more
  page := (PageDir.page_setPte ..).trans walked.page

theorem PageDir.pte_none (pd : PageDir) (va : Nat) : pd.pte va = none ↔ pd.table (pdx va) = none := Option.map_eq_none_iff

theorem PageDir.pte_isSome (pd : PageDir) (va : Nat) : (pd.pte va).isSome = (pd.table (pdx va)).isSome := Option.isSome_map

theorem wp_kalloc {post : Option Nat → Mem → Prop} (empty : m.freelist = [] → post none m)
    (taken : ∀ page rest, m.freelist = page :: rest → post (some page) { m with freelist := rest }) :
    wp kalloc post stop m := by
  unfold kalloc
  rw [wp_bind, wp_get]
  cases list : m.freelist with
  | nil => exact wp_pure.mpr (empty list)
  | cons page rest =>
    dsimp only
    rw [wp_bind, wp_set]
    exact wp_pure.mpr (taken page rest list)

/-- The tables of `pd'` are those of `pd` and the ones that these pages need. -/
def Tabled (pd pd' : PageDir) (v count : Nat) : Prop :=
  ∀ i, (pd'.table i).isSome = true ↔ (pd.table i).isSome = true ∨ ∃ w, v ≤ w ∧ w < v + count ∧ w / 1024 = i

theorem wp_walkpgdir {post : PageDir × Option Pte → Mem → Prop}
    (missing : m.freelist = [] → pd.table (v / 1024) = none → post (pd, none) m)
    (small : v < 2 ^ 20)
    (found : ∀ pd' m' e, Walked m m' pd pd' → Tabled pd pd' v 1 → pd'.pte (PGSIZE * v) = some e →
      (∀ w, pd'.lookup w = pd.lookup w) → post (pd', some e) m') :
    wp (walkpgdir pd (PGSIZE * v) true) post stop m := by
  have dir := pdx_page small
  unfold walkpgdir
  split
  next e here =>
    refine wp_pure.mpr (found pd m e (.refl m pd) (fun i => ⟨.inl, ?_⟩) here fun _ => rfl)
    rintro (there | ⟨w, low, high, rfl⟩)
    · exact there
    · rw [show w = v by omega, ← dir, ← PageDir.pte_isSome, here]
      rfl
  next none =>
    rw [if_neg (by decide)]
    have empty := (pd.pte_none _).mp none
    rw [wp_bind]
    apply wp_kalloc
    · intro list
      exact wp_pure.mpr (missing list (dir ▸ empty))
    · intro r rest list
      apply wp_pure.mpr
      refine found (pd.addTable (pdx (PGSIZE * v)) r) _ Pte.zero ?_ (fun i => ?_) ?_ fun w => PageDir.lookup_addTable empty
      · have tables := PageDir.tables_addTable r (pdx_lt _) empty
        refine ⟨rfl, ?_, ?_, ?_, rfl⟩
        · rw [list]
          exact List.suffix_cons r rest
        · rw [tables, list, ← cons_coe, ← singleton_add]
          dsimp only
          abel
        · rw [tables]
          exact Multiset.le_add_right ..
      · unfold PageDir.addTable
        dsimp only
        by_cases same : i = pdx (PGSIZE * v)
        · rw [same, update_self]
          exact iff_of_true rfl (.inr ⟨v, Nat.le_refl v, Nat.lt_succ_self v, dir.symm⟩)
        · rw [update_of_ne same]
          refine ⟨.inl, ?_⟩
          rintro (there | ⟨w, low, high, rfl⟩)
          · exact there
          · rw [show w = v by omega] at same
            exact absurd dir.symm same
      · unfold PageDir.pte PageDir.addTable
        dsimp only
        rw [update_self]
        rfl

end Walk

section Map

variable {first second : Nat}

theorem Tabled.trans (one : Tabled pd pd' v first)
    (two : Tabled pd' pd'' (v + first) second) : Tabled pd pd'' v (first + second) := by
  intro i
  rw [two i, one i]
  constructor
  · rintro ((there | ⟨w, low, high, dir⟩) | ⟨w, low, high, dir⟩)
    · exact .inl there
    · exact .inr ⟨w, low, by omega, dir⟩
    · exact .inr ⟨w, by omega, by omega, dir⟩
  · rintro (there | ⟨w, low, high, dir⟩)
    · exact .inl (.inl there)
    · by_cases early : w < v + first
      · exact .inl (.inr ⟨w, low, early, dir⟩)
      · exact .inr ⟨w, by omega, by omega, dir⟩

def Within (pd pd' : PageDir) (v count : Nat) : Prop :=
  ∀ i, (pd'.table i).isSome = true → (pd.table i).isSome = true ∨ ∃ w, v ≤ w ∧ w < v + count ∧ w / 1024 = i

theorem Tabled.within (one : Tabled pd pd' v first)
    (two : Within pd' pd'' (v + first) second) : Within pd pd'' v (first + second) := by
  intro i there
  rcases two i there with before | ⟨w, low, high, dir⟩
  · rcases (one i).mp before with sooner | ⟨w, low, high, dir⟩
    · exact .inl sooner
    · exact .inr ⟨w, low, by omega, dir⟩
  · exact .inr ⟨w, by omega, by omega, dir⟩

/-- The lookups after `count` pages from `v` on were mapped to those from `q` on. -/
def Maps (pd pd' : PageDir) (v q count : Nat) (perm : BitVec 12) : Prop :=
  ∀ w < 2 ^ 20, pd'.lookup w = if v ≤ w ∧ w < v + count then some ⟨q + (w - v), perm ||| PTE_P⟩ else pd.lookup w

variable {post : PageDir × Bool → Mem → Prop}

theorem wp_mappagesFrom (fuel v q k : Nat) (perm : BitVec 12) (enough : k < fuel)
    (small : v + k < 2 ^ 20) (phys : q + k < 2 ^ 20) (absent : ∀ w, v ≤ w → w ≤ v + k → pd.lookup w = none)
    (failed : ∀ pd' m' j, j ≤ k → Walked m m' pd pd' → m'.freelist = [] → Within pd pd' v j →
      pd'.table ((v + j) / 1024) = none → Maps pd pd' v q j perm → post (pd', false) m')
    (done : ∀ pd' m', Walked m m' pd pd' → Tabled pd pd' v (k + 1) → Maps pd pd' v q (k + 1) perm → post (pd', true) m') :
    wp (mappagesFrom fuel pd (PGSIZE * v) (PGSIZE * (v + k)) (PGSIZE * q) perm) post stop m := by
  induction fuel generalizing pd m v q k with
  | zero => omega
  | succ fuel ih =>
    unfold mappagesFrom
    apply wp_bind.mpr
    apply wp_walkpgdir
    · intro empty missing
      exact wp_pure.mpr (failed pd m 0 (Nat.zero_le k) (.refl m pd) empty (fun i there => .inl there) missing
        fun w _ => by rw [if_neg (by omega)])
    · omega
    · intro pd' m' e walked tabled there same
      have fresh : e.present = false := by
        cases here : e.present with
        | false => rfl
        | true =>
          have now := PageDir.lookup_eq_some there here
          rw [same, absent v (Nat.le_refl v) (by omega)] at now
          cases now
      have frame : (PGSIZE * q / PGSIZE) = q := Nat.mul_div_cancel_left q (by decide)
      dsimp only
      rw [fresh, if_neg (by decide), frame]
      have look : ∀ w < 2 ^ 20, (pd'.setPte (PGSIZE * v) ⟨q, perm ||| PTE_P⟩).lookup w =
          if w = v then some ⟨q, perm ||| PTE_P⟩ else pd.lookup w := by
        intro w below
        rw [PageDir.lookup_setPte (by omega) below there, present_or, same]
        rfl
      have wrote := walked.setPte (PGSIZE * v) ⟨q, perm ||| PTE_P⟩
      have tables : Tabled pd (pd'.setPte (PGSIZE * v) ⟨q, perm ||| PTE_P⟩) v 1 := by
        intro i
        rw [PageDir.table_setPte]
        exact tabled i
      cases k with
      | zero =>
        rw [Nat.add_zero, if_pos rfl]
        refine wp_pure.mpr (done _ m' wrote tables fun w below => ?_)
        rw [look w below]
        by_cases here : w = v
        · subst here
          rw [if_pos rfl, if_pos (by omega), Nat.sub_self, Nat.add_zero]
        · rw [if_neg here, if_neg (by omega)]
      | succ k =>
        have more : ¬ PGSIZE * v = PGSIZE * (v + (k + 1)) := by
          unfold PGSIZE
          omega
        have next : (PGSIZE * v + PGSIZE) % 2 ^ 32 = PGSIZE * (v + 1) := by
          unfold PGSIZE
          omega
        have nextPhys : (PGSIZE * q + PGSIZE) % 2 ^ 32 = PGSIZE * (q + 1) := by
          unfold PGSIZE
          omega
        rw [if_neg more, next, nextPhys, show v + (k + 1) = v + 1 + k by omega]
        have spliced : ∀ pd'' count, Maps (pd'.setPte (PGSIZE * v) ⟨q, perm ||| PTE_P⟩) pd'' (v + 1) (q + 1) count perm →
            Maps pd pd'' v q (count + 1) perm := by
          intro pd'' count maps w below
          rw [maps w below, look w below]
          by_cases later : v + 1 ≤ w ∧ w < v + 1 + count
          · rw [if_pos later, if_pos (by omega), show q + 1 + (w - (v + 1)) = q + (w - v) by omega]
          · rw [if_neg later]
            by_cases here : w = v
            · subst here
              rw [if_pos rfl, if_pos (by omega), Nat.sub_self, Nat.add_zero]
            · rw [if_neg here, if_neg (by omega)]
        apply ih (v + 1) (q + 1) k (by omega) (by omega) (by omega)
        · intro w low high
          rw [look w (by omega), if_neg (by omega)]
          exact absent w (by omega) (by omega)
        · intro pd'' m'' j bound rest empty within missing maps
          exact failed pd'' m'' (j + 1) (by omega) (wrote.trans rest) empty (Nat.add_comm 1 j ▸ tables.within within)
            (by rw [← missing, Nat.add_right_comm, Nat.add_assoc]) (spliced pd'' j maps)
        · intro pd'' m'' rest more maps
          exact done pd'' m'' (wrote.trans rest) (Nat.add_comm 1 (k + 1) ▸ tables.trans more) (spliced pd'' (k + 1) maps)

theorem wp_mappages_page (v q : Nat) (perm : BitVec 12)
    (small : v < 2 ^ 20) (phys : q < 2 ^ 20) (absent : pd.lookup v = none)
    (failed : ∀ pd' m', Walked m m' pd pd' → m'.freelist = [] → Within pd pd' v 0 → pd'.table (v / 1024) = none →
      (∀ w < 2 ^ 20, pd'.lookup w = pd.lookup w) → post (pd', false) m')
    (done : ∀ pd' m', Walked m m' pd pd' → Tabled pd pd' v 1 →
      (∀ w < 2 ^ 20, pd'.lookup w = if w = v then some ⟨q, perm ||| PTE_P⟩ else pd.lookup w) → post (pd', true) m') :
    wp (mappages pd (PGSIZE * v) PGSIZE (PGSIZE * q) perm) post stop m := by
  have first : pgrounddown (PGSIZE * v) = PGSIZE * v := by
    unfold pgrounddown PGSIZE
    omega
  have last : pgrounddown ((PGSIZE * v + PGSIZE + 2 ^ 32 - 1) % 2 ^ 32) = PGSIZE * (v + 0) := by
    unfold pgrounddown PGSIZE
    omega
  unfold mappages
  rw [first, last]
  apply wp_mappagesFrom (2 ^ 20) v q 0 perm (by decide) (by omega) (by omega)
  · intro w low high
    rw [show w = v by omega]
    exact absent
  · intro pd' m' j bound walked empty within missing maps
    obtain rfl : j = 0 := by omega
    refine failed pd' m' walked empty within missing fun w below => ?_
    rw [maps w below, if_neg (by omega)]
  · intro pd' m' walked tabled maps
    refine done pd' m' walked tabled fun w below => ?_
    rw [maps w below]
    by_cases here : w = v
    · subst here
      rw [if_pos (by omega), if_pos rfl, Nat.sub_self, Nat.add_zero]
    · rw [if_neg (by omega), if_neg here]

end Map

variable {lo hi oldsz newsz : Nat} {post : PageDir × Nat → Mem → Prop}

section Dealloc

/-- Pages that user memory may be in: `kfree` takes them back. -/
def Mem.Usable (m : Mem) (pages : Multiset Nat) : Prop := ∀ page ∈ pages, m.Valid page ∧ page ≠ 0

/-- The pages from `lo` to `hi` are gone, and back on the free list. -/
structure Freed (m m' : Mem) (pd pd' : PageDir) (lo hi : Nat) : Prop where
  frame : m' = { m with freelist := m'.freelist, content := m'.content }
  content : ∀ page, page ∉ m'.freelist → m'.content page = m.content page
  kept : ∀ page ∈ m.freelist, page ∈ m'.freelist
  pages : (m'.freelist : Multiset Nat) + pd'.user = m.freelist + pd.user
  page : pd'.page = pd.page
  tables : pd'.tables = pd.tables
  isSome : ∀ i, (pd'.table i).isSome = (pd.table i).isSome
  lookup : ∀ w < 2 ^ 20, pd'.lookup w = if lo ≤ w ∧ w < hi then none else pd.lookup w

theorem Freed.refl (absent : ∀ w < 2 ^ 20, lo ≤ w → w < hi → pd.lookup w = none) : Freed m m pd pd lo hi where
  frame := rfl
  content := fun _ _ => rfl
  kept := fun _ here => here
  pages := rfl
  page := rfl
  tables := rfl
  isSome := fun _ => rfl
  lookup := by
    intro w below
    split
    next inside => exact absent w below inside.1 inside.2
    next => rfl

variable {mid : Nat}

theorem Freed.trans (first : Freed m m' pd pd' lo mid)
    (second : Freed m' m'' pd' pd'' mid hi) (order : lo ≤ mid) (whole : mid ≤ hi) : Freed m m'' pd pd'' lo hi where
  frame := by
    have last := second.frame
    rw [first.frame] at last
    exact last
  content := fun page away =>
    (second.content page away).trans (first.content page fun here => away (second.kept page here))
  kept := fun page here => second.kept page (first.kept page here)
  pages := second.pages.trans first.pages
  page := second.page.trans first.page
  tables := second.tables.trans first.tables
  isSome := fun i => (second.isSome i).trans (first.isSome i)
  lookup := by
    intro w below
    rw [second.lookup w below, first.lookup w below]
    by_cases early : lo ≤ w ∧ w < mid
    · rw [if_pos early, ite_self, if_pos (by omega)]
    · rw [if_neg early]
      by_cases late : mid ≤ w ∧ w < hi
      · rw [if_pos late, if_pos (by omega)]
      · rw [if_neg late, if_neg (by omega)]

theorem Freed.extend (freed : Freed m m' pd pd' mid hi) (order : lo ≤ mid)
    (absent : ∀ w < 2 ^ 20, lo ≤ w → w < mid → pd.lookup w = none) : Freed m m' pd pd' lo hi where
  frame := freed.frame
  content := freed.content
  kept := freed.kept
  pages := freed.pages
  page := freed.page
  tables := freed.tables
  isSome := freed.isSome
  lookup := by
    intro w below
    rw [freed.lookup w below]
    by_cases early : lo ≤ w ∧ w < mid
    · rw [absent w below early.1 early.2, ite_self, ite_self]
    · exact if_congr (by omega) rfl rfl

theorem freed_entry (inside : v < UPAGES) (there : pd.pte (PGSIZE * v) = some e)
    (present : e.present = true) :
    Freed m { m with content := update m.content e.ppn junk, freelist := e.ppn :: m.freelist }
      pd (pd.setPte (PGSIZE * v) Pte.zero) v (v + 1) := by
  have order := upages_le
  have look : ∀ w < 2 ^ 20, (pd.setPte (PGSIZE * v) Pte.zero).lookup w = if w = v then none else pd.lookup w := by
    intro w below
    rw [PageDir.lookup_setPte (by omega) below there, present_zero]
    rfl
  refine ⟨rfl, ?_, ?_, ?_, PageDir.page_setPte .., PageDir.tables_setPte .., fun i => PageDir.table_setPte .., ?_⟩
  · intro page away
    apply update_of_ne
    rintro rfl
    exact away List.mem_cons_self
  · exact fun page here => List.mem_cons_of_mem _ here
  · have cleared : (pd.setPte (PGSIZE * v) Pte.zero).user + {e.ppn} = pd.user := by
      apply gathered_clear inside (PageDir.lookup_eq_some there present)
      · rw [look v (by omega), if_pos rfl]
      · intro w below apart
        rw [look w (by omega), if_neg apart]
    rw [← cleared, ← cons_coe, ← singleton_add]
    abel
  · intro w below
    rw [look w below]
    exact if_congr (by omega) rfl rfl

theorem PageDir.lookup_missing (below : w < 2 ^ 20) (same : w / 1024 = v / 1024)
    (missing : pd.pte (PGSIZE * v) = none) : pd.lookup w = none := by
  have dir : pdx (PGSIZE * w) = pdx (PGSIZE * v) := by
    rw [pdx_page below, pdx_page (by omega), same]
  rw [lookup, pte, dir, (pd.pte_none _).mp missing]
  rfl

/-- `kfree` takes the pages from `lo` to `hi`. -/
def Mem.Takes (m : Mem) (pd : PageDir) (lo hi : Nat) : Prop :=
  ∀ w, lo ≤ w → w < hi → ∀ e, pd.lookup w = some e → m.Valid e.ppn ∧ e.ppn ≠ 0

/-- The present entries from `lo` to `hi` are zero now, and no other entry has changed. -/
def Cleared (pd pd' : PageDir) (lo hi : Nat) : Prop :=
  ∀ w < 2 ^ 20, pd'.pte (PGSIZE * w) =
    if lo ≤ w ∧ w < hi ∧ (pd.lookup w).isSome = true then some Pte.zero else pd.pte (PGSIZE * w)

theorem Cleared.extend (cleared : Cleared pd pd' mid hi) (order : lo ≤ mid)
    (absent : ∀ w < 2 ^ 20, lo ≤ w → w < mid → pd.lookup w = none) : Cleared pd pd' lo hi := by
  intro w below
  rw [cleared w below]
  refine if_congr ⟨fun here => ⟨order.trans here.1, here.2⟩, fun here => ⟨?_, here.2⟩⟩ rfl rfl
  by_contra early
  have present := here.2.2
  rw [absent w below here.1 (by omega)] at present
  cases present

theorem cleared_entry (small : v < 2 ^ 20) (inside : v < hi) (there : pd.pte (PGSIZE * v) = some e)
    (present : e.present = true) (rest : Cleared (pd.setPte (PGSIZE * v) Pte.zero) pd' (v + 1) hi) :
    Cleared pd pd' v hi := by
  intro w below
  rw [rest w below, PageDir.lookup_setPte small below there, PageDir.pte_setPte small below there]
  by_cases same : w = v
  · rw [same, if_neg (by omega), if_pos rfl, PageDir.lookup_eq_some there present]
    exact (if_pos ⟨Nat.le_refl v, inside, rfl⟩).symm
  · rw [if_neg same, if_neg same]
    exact if_congr (and_congr_left fun _ => by omega) rfl rfl

theorem wp_deallocuvmFrom {post : PageDir → Mem → Prop} (fuel v oldsz : Nat) (small : oldsz ≤ KERNBASE)
    (enough : pagesFor oldsz ≤ v + fuel) (takes : m.Takes pd v (pagesFor oldsz))
    (done : ∀ pd' m', Freed m m' pd pd' v (pagesFor oldsz) → Cleared pd pd' v (pagesFor oldsz) → post pd' m') :
    wp (deallocuvmFrom (fuel + 1) pd (PGSIZE * v) oldsz) post stop m := by
  have top := pagesFor_le small
  have order := upages_eq
  induction fuel generalizing pd m v post with
  | zero =>
    unfold deallocuvmFrom
    rw [if_neg (by rw [page_lt_iff]; omega)]
    exact wp_pure.mpr (done pd m (.refl fun w _ low high => by omega) fun w _ => (if_neg (by omega)).symm)
  | succ fuel ih =>
    unfold deallocuvmFrom
    by_cases more : v < pagesFor oldsz
    · rw [if_pos (page_lt_iff.mpr more)]
      have next : (PGSIZE * v + PGSIZE) % 2 ^ 32 = PGSIZE * (v + 1) := by
        unfold PGSIZE
        omega
      split
      next missing =>
        have skip : (pgaddr (pdx (PGSIZE * v) + 1) 0 0 + 2 ^ 32 - PGSIZE + PGSIZE) % 2 ^ 32 =
            PGSIZE * (1024 * (v / 1024 + 1)) := by
          rw [pdx_page (by omega)]
          unfold pgaddr PGSIZE
          omega
        have absent : ∀ w < 2 ^ 20, v ≤ w → w < 1024 * (v / 1024 + 1) → pd.lookup w = none := fun w below low high =>
          PageDir.lookup_missing below (by omega) missing
        rw [skip]
        refine ih _ (by omega) (fun w low => takes w (by omega)) fun pd' m' freed cleared => ?_
        exact done pd' m' (freed.extend (by omega) absent) (cleared.extend (by omega) absent)
      next e there =>
        cases present : e.present with
        | true =>
          have mapped := PageDir.lookup_eq_some there present
          have valid := takes v (Nat.le_refl v) more e mapped
          have freed := freed_entry (m := m) (by omega) there present
          rw [if_pos rfl, if_neg valid.2]
          unfold kfree
          rw [wp_bind, wp_bind, wp_get, if_neg (not_not.mpr valid.1), wp_set, next]
          refine ih (v + 1) (by omega) (fun w low high e' still => ?_) fun pd' m' rest cleared => ?_
          · rw [freed.lookup w (by omega), if_neg (by omega)] at still
            exact takes w (by omega) high e' still
          · exact done pd' m' (freed.trans rest (by omega) (by omega)) (cleared_entry (by omega) more there present cleared)
        | false =>
          have absent : ∀ w < 2 ^ 20, v ≤ w → w < v + 1 → pd.lookup w = none := by
            intro w _ low high
            rw [show w = v by omega]
            exact PageDir.lookup_eq_none there present
          rw [if_neg (by decide), next]
          refine ih (v + 1) (by omega) (fun w low => takes w (by omega)) fun pd' m' freed cleared => ?_
          exact done pd' m' (freed.extend (by omega) absent) (cleared.extend (by omega) absent)
    · rw [if_neg (by rw [page_lt_iff]; exact more)]
      exact wp_pure.mpr (done pd m (.refl fun w _ low high => by omega) fun w _ => (if_neg (by omega)).symm)

theorem wp_deallocuvm_range (smaller : newsz < oldsz)
    (small : oldsz ≤ KERNBASE) (takes : m.Takes pd (pagesFor newsz) (pagesFor oldsz))
    (done : ∀ pd' m', Freed m m' pd pd' (pagesFor newsz) (pagesFor oldsz) →
      Cleared pd pd' (pagesFor newsz) (pagesFor oldsz) → post (pd', newsz) m') :
    wp (deallocuvm pd oldsz newsz) post stop m := by
  have top := pagesFor_le small
  have order := upages_eq
  unfold deallocuvm
  rw [if_neg (by omega), wp_bind, pgroundup_eq (by omega)]
  exact wp_deallocuvmFrom (2 ^ 20) _ oldsz small (by omega) takes fun pd' m' freed cleared =>
    wp_pure.mpr (done pd' m' freed cleared)

theorem wp_deallocuvm (smaller : newsz < oldsz)
    (small : oldsz ≤ KERNBASE) (usable : m.Usable pd.user)
    (done : ∀ pd' m', Freed m m' pd pd' (pagesFor newsz) (pagesFor oldsz) → post (pd', newsz) m') :
    wp (deallocuvm pd oldsz newsz) post stop m := by
  have top := pagesFor_le small
  refine wp_deallocuvm_range smaller small (fun w _ high e there => ?_) fun pd' m' freed _ => done pd' m' freed
  exact usable e.ppn (mem_gathered.mpr ⟨w, by omega, e, there, rfl⟩)

end Dealloc

section Alloc

/-- All the pages that the directory is made of or that are free. -/
def Mem.pages (m : Mem) (pd : PageDir) : Multiset Nat := (m.freelist : Multiset Nat) + pd.tables + pd.user

/-- The pages from `lo` to `hi` are new in the address space, and zero. -/
structure Grown (m m' : Mem) (pd pd' : PageDir) (lo hi : Nat) : Prop where
  frame : m' = { m with freelist := m'.freelist, content := m'.content }
  suffix : m'.freelist <:+ m.freelist
  content : ∀ page, page ∉ m.freelist → m'.content page = m.content page
  pages : m'.pages pd' = m.pages pd
  more : pd.tables ≤ pd'.tables
  page : pd'.page = pd.page
  tabled : Tabled pd pd' lo (hi - lo)
  count : pd'.user.card = pd.user.card + (hi - lo)
  lookup : ∀ w < 2 ^ 20, ¬ (lo ≤ w ∧ w < hi) → pd'.lookup w = pd.lookup w
  fresh : ∀ w, lo ≤ w → w < hi → ∃ page ∈ m.freelist,
    pd'.lookup w = some ⟨page, PTE_W ||| PTE_U ||| PTE_P⟩ ∧ m'.content page = Bytes.zero

theorem Grown.refl (m : Mem) (pd : PageDir) (lo : Nat) : Grown m m pd pd lo lo :=
  ⟨rfl, List.suffix_refl _, fun _ _ => rfl, rfl, le_refl _, rfl, fun i => ⟨.inl, fun either => either.elim id
    fun ⟨w, low, high, _⟩ => by omega⟩, by rw [Nat.sub_self, Nat.add_zero], fun _ _ _ => rfl, fun w low high => by omega⟩

theorem Grown.step {mem : Nat} {rest : List Nat} (grown : Grown m m' pd pd' lo v)
    (order : lo ≤ v) (inside : v < UPAGES) (absent : pd'.lookup v = none) (list : m'.freelist = mem :: rest)
    (walked : Walked { m' with freelist := rest, content := update m'.content mem Bytes.zero } m'' pd' pd'')
    (tabled : Tabled pd' pd'' v 1)
    (look : ∀ w < 2 ^ 20, pd''.lookup w = if w = v then some ⟨mem, PTE_W ||| PTE_U ||| PTE_P⟩ else pd'.lookup w) :
    Grown m m'' pd pd'' lo (v + 1) := by
  have small : UPAGES = 2 ^ 19 := by decide
  have mine : mem ∈ m.freelist := grown.suffix.subset (by rw [list]; exact List.mem_cons_self)
  have content : m''.content = update m'.content mem Bytes.zero := by rw [walked.frame]
  have user : pd''.user = pd'.user + {mem} := by
    apply gathered_fill (a := (⟨mem, PTE_W ||| PTE_U ||| PTE_P⟩ : Pte)) inside absent
    · rw [look v (by omega), if_pos rfl]
    · intro w below apart
      rw [look w (by omega), if_neg apart]
  constructor
  case frame =>
    have last := walked.frame
    rw [grown.frame] at last
    rw [last]
  case suffix =>
    refine walked.suffix.trans (List.IsSuffix.trans ?_ grown.suffix)
    rw [list]
    exact List.suffix_cons mem rest
  case content =>
    intro page away
    have other : page ≠ mem := fun same => away (same ▸ mine)
    rw [content, update_of_ne other]
    exact grown.content page away
  case pages =>
    have spare := walked.spare
    rw [← grown.pages, Mem.pages, Mem.pages, user, spare, list, ← cons_coe, ← singleton_add]
    dsimp only
    abel
  case more => exact grown.more.trans walked.more
  case page => exact walked.page.trans grown.page
  case tabled =>
    have both := grown.tabled.trans (by rw [Nat.add_sub_cancel' order]; exact tabled)
    rwa [← Nat.sub_add_comm order] at both
  case count =>
    rw [user, card_add, grown.count, card_singleton]
    omega
  case lookup =>
    intro w below outside
    rw [look w below, if_neg (by omega)]
    exact grown.lookup w below (by omega)
  case fresh =>
    intro w low high
    by_cases here : w = v
    · subst here
      refine ⟨mem, mine, ?_, ?_⟩
      · rw [look w (by omega), if_pos rfl]
      · rw [content, update_self]
    · obtain ⟨page, member, mapped, zero⟩ := grown.fresh w low (by omega)
      refine ⟨page, member, ?_, ?_⟩
      · rw [look w (by omega), if_neg here, mapped]
      · rw [content]
        by_cases same : page = mem
        · rw [same, update_self]
        · rw [update_of_ne same, zero]

/-- Page tables may have been added, and the pages `extra` are not free. -/
structure Undone (m m' : Mem) (pd pd' : PageDir) (extra : Multiset Nat) : Prop where
  frame : m' = { m with freelist := m'.freelist, content := m'.content }
  content : ∀ page, page ∉ m.freelist → m'.content page = m.content page
  pages : m'.pages pd' + extra = m.pages pd
  more : pd.tables ≤ pd'.tables
  page : pd'.page = pd.page
  lookup : ∀ w < 2 ^ 20, pd'.lookup w = pd.lookup w

theorem user_congr (same : ∀ w < 2 ^ 20, pd'.lookup w = pd.lookup w) : pd'.user = pd.user := by
  apply gathered_congr
  intro w below
  exact same w (Nat.lt_of_lt_of_le below (by decide))

theorem Undone.refl (m : Mem) (pd : PageDir) : Undone m m pd pd 0 :=
  ⟨rfl, fun _ _ => rfl, add_zero _, le_refl _, rfl, fun _ _ => rfl⟩

variable {extra : Multiset Nat}

theorem Undone.freelist_le (undone : Undone m m' pd pd' extra) :
    (m'.freelist : Multiset Nat) + extra ≤ m.freelist := by
  have total := undone.pages
  rw [Mem.pages, Mem.pages, user_congr undone.lookup] at total
  have tables : (m'.freelist : Multiset Nat) + extra + pd'.tables = m.freelist + pd.tables := by
    apply add_right_cancel (b := pd.user)
    rw [← total]
    abel
  have bound : (m'.freelist : Multiset Nat) + extra + pd.tables ≤ m.freelist + pd.tables := by
    rw [← tables]
    gcongr
    exact undone.more
  exact le_of_add_le_add_right bound

theorem Freed.undone (freed : Freed m' m'' pd' pd'' lo hi)
    (frame : m' = { m with freelist := m'.freelist, content := m'.content })
    (content : ∀ page, page ∉ m.freelist → m'.content page = m.content page)
    (pages : m'.pages pd' + extra = m.pages pd) (more : pd.tables ≤ pd'.tables) (page : pd'.page = pd.page)
    (lookup : ∀ w < 2 ^ 20, ¬ (lo ≤ w ∧ w < hi) → pd'.lookup w = pd.lookup w)
    (absent : ∀ w, lo ≤ w → w < hi → pd.lookup w = none) : Undone m m'' pd pd'' extra := by
  have back : ∀ w < 2 ^ 20, pd''.lookup w = pd.lookup w := by
    intro w below
    rw [freed.lookup w below]
    split
    next inside => exact (absent w inside.1 inside.2).symm
    next outside => exact lookup w below outside
  have total : m''.pages pd'' + extra = m.pages pd := by
    have moved := freed.pages
    rw [← pages, Mem.pages, Mem.pages, freed.tables, add_right_comm _ pd'.tables, moved]
    abel
  have free : Undone { m with freelist := m.freelist } { m with freelist := m''.freelist } pd pd'' extra :=
    ⟨rfl, fun _ _ => rfl, total, by rw [freed.tables]; exact more, freed.page.trans page, back⟩
  refine ⟨?_, fun there away => ?_, total, free.more, free.page, back⟩
  · have last := freed.frame
    rw [frame] at last
    exact last
  · have gone : there ∉ m''.freelist := by
      intro member
      have before := mem_of_le free.freelist_le (mem_add.mpr (.inl (mem_coe.mpr member)))
      exact away (mem_coe.mp before)
    rw [freed.content there gone, content there away]

theorem Undone.kfree (undone : Undone m m' pd pd' {page}) :
    Undone m { m' with content := update m'.content page junk, freelist := page :: m'.freelist } pd pd' 0 := by
  have mine : page ∈ m.freelist := by
    have here := mem_of_le undone.freelist_le (mem_add.mpr (.inr (mem_singleton_self page)))
    exact mem_coe.mp here
  refine ⟨?_, fun there away => ?_, ?_, undone.more, undone.page, undone.lookup⟩
  · rw [undone.frame]
  · have other : there ≠ page := fun same => away (same ▸ mine)
    dsimp only
    rw [update_of_ne other]
    exact undone.content there away
  · rw [← undone.pages, Mem.pages, Mem.pages, ← cons_coe, ← singleton_add]
    abel

theorem Mem.Usable.user {first : Mem} {dir : PageDir} (usable : first.Usable (first.pages dir))
    (frame : m = { first with freelist := m.freelist, content := m.content })
    (pages : m.pages pd + extra = first.pages dir) : m.Usable pd.user := by
  intro page member
  rw [frame]
  apply usable page
  rw [← pages, Mem.pages]
  exact mem_add.mpr (.inl (mem_add.mpr (.inr member)))

theorem Mem.Valid.lt (valid : m.Valid page) : page < 2 ^ 20 := by
  have := valid.2
  unfold PGSIZE PHYSTOP at this
  omega

theorem wp_kfree {post : Unit → Mem → Prop} (valid : m.Valid page)
    (here : post () { m with content := update m.content page junk, freelist := page :: m.freelist }) :
    wp (kfree page) post stop m := by
  unfold Vm.kfree
  rw [wp_bind, wp_get, if_neg (not_not.mpr valid)]
  exact wp_set.mpr here

/-- There are too few pages for those from `lo` to `hi`, with their tables. -/
def Short (m : Mem) (pd : PageDir) (lo hi : Nat) : Prop :=
  ∀ tables : Finset Nat, (∀ i, (pd.table i).isSome = true → i ∈ tables) → (∀ w, lo ≤ w → w < hi → w / 1024 ∈ tables) →
    m.freelist.length + pd.tables.card < tables.card + (hi - lo)

theorem PageDir.card_tables_le {tables : Finset Nat} (inside : ∀ i, (pd.table i).isSome = true → i ∈ tables) :
    pd.tables.card ≤ tables.card := by
  rw [PageDir.tables, card_gathered]
  apply Finset.card_le_card
  intro i member
  exact inside i (Finset.mem_filter.mp member).2

theorem pages_taken (pages : m'.pages pd' + extra = m.pages pd) (empty : m'.freelist = []) :
    m.freelist.length + pd.tables.card + pd.user.card = pd'.tables.card + pd'.user.card + extra.card := by
  have cards := congrArg Multiset.card pages
  rw [Mem.pages, Mem.pages, empty] at cards
  simp only [card_add, coe_card, List.length_nil] at cards
  omega

theorem wp_allocuvmFrom (fuel v oldsz newsz : Nat) (small : newsz ≤ KERNBASE)
    (start : pagesFor oldsz ≤ v) (atMost : v ≤ pagesFor newsz) (enough : pagesFor newsz ≤ v + fuel)
    (usable : m.Usable (m.pages pd)) (absent : ∀ w, pagesFor oldsz ≤ w → w < pagesFor newsz → pd.lookup w = none)
    (grown : Grown m m' pd pd' (pagesFor oldsz) v)
    (failed : ∀ pd'' m'', Undone m m'' pd pd'' 0 → Short m pd (pagesFor oldsz) (pagesFor newsz) → post (pd'', 0) m'')
    (done : ∀ pd'' m'', Grown m m'' pd pd'' (pagesFor oldsz) (pagesFor newsz) → post (pd'', newsz) m'') :
    wp (allocuvmFrom (fuel + 1) pd' (PGSIZE * v) oldsz newsz) post stop m' := by
  have top := pagesFor_le small
  have order := upages_eq
  induction fuel generalizing pd' m' v with
  | zero =>
    unfold allocuvmFrom
    rw [if_neg (by rw [page_lt_iff]; omega)]
    obtain rfl : v = pagesFor newsz := by omega
    exact wp_pure.mpr (done pd' m' grown)
  | succ fuel ih =>
    unfold allocuvmFrom
    by_cases inside : v < pagesFor newsz
    · have within : ∀ tables : Finset Nat, (∀ i, (pd.table i).isSome = true → i ∈ tables) →
          (∀ w, pagesFor oldsz ≤ w → w < pagesFor newsz → w / 1024 ∈ tables) → ∀ i, (pd'.table i).isSome = true → i ∈ tables := by
        intro tables old needed i there
        rcases (grown.tabled i).mp there with before | ⟨w, low, high, rfl⟩
        · exact old i before
        · exact needed w low (by omega)
      have larger : oldsz < newsz := by
        by_contra smaller
        have := pagesFor_mono (Nat.le_of_not_lt smaller)
        omega
      have outside : ∀ w < 2 ^ 20, ¬ (pagesFor oldsz ≤ w ∧ w < pagesFor newsz) → pd'.lookup w = pd.lookup w :=
        fun w below apart => grown.lookup w below (by omega)
      rw [if_pos (page_lt_iff.mpr inside), wp_bind]
      apply wp_kalloc
      · intro list
        dsimp only
        rw [wp_bind]
        apply wp_deallocuvm larger small (usable.user grown.frame ((add_zero _).trans grown.pages))
        intro pd'' m'' freed
        refine wp_pure.mpr (failed pd'' m'' (freed.undone grown.frame grown.content ((add_zero _).trans grown.pages) grown.more
          grown.page outside absent) fun tables old needed => ?_)
        have taken := pages_taken ((add_zero _).trans grown.pages) list
        have bound := PageDir.card_tables_le (within tables old needed)
        rw [grown.count, card_zero] at taken
        omega
      · intro mem rest list
        have mine : mem ∈ m.freelist := grown.suffix.subset (by rw [list]; exact List.mem_cons_self)
        have valid := usable mem (by
          rw [Mem.pages, add_assoc]
          exact mem_add.mpr (.inl (mem_coe.mpr mine)))
        have free : pd'.lookup v = none := by
          rw [grown.lookup v (by omega) (by omega)]
          exact absent v start inside
        dsimp only
        rw [wp_bind, setPage, wp_modify, wp_bind]
        apply wp_mappages_page v mem (PTE_W ||| PTE_U) (by omega) valid.1.lt free
        · intro pd'' m'' walked empty more missing same
          have frame : m'' = { m with freelist := m''.freelist, content := m''.content } := by
            have last := walked.frame
            rw [grown.frame] at last
            rw [last]
          have content : ∀ page, page ∉ m.freelist → m''.content page = m.content page := by
            intro page away
            have other : page ≠ mem := fun same => away (same ▸ mine)
            rw [walked.frame]
            exact (update_of_ne other ..).trans (grown.content page away)
          dsimp only
          have pages : m''.pages pd'' + {mem} = m.pages pd := by
            have spare := walked.spare
            rw [← grown.pages, Mem.pages, Mem.pages, user_congr same, spare, list, ← cons_coe,
              ← singleton_add]
            dsimp only
            abel
          rw [wp_bind]
          apply wp_deallocuvm larger small (usable.user frame pages)
          intro pd₃ m₃ freed
          have undone := freed.undone frame content pages (grown.more.trans walked.more) (walked.page.trans grown.page)
            (fun w below apart => (same w below).trans (outside w below apart)) absent
          rw [wp_bind]
          apply wp_kfree (by rw [undone.frame]; exact valid.1)
          refine wp_pure.mpr (failed pd₃ _ undone.kfree fun tables old needed => ?_)
          have taken := pages_taken pages empty
          have bound : pd''.tables.card ≤ (tables.erase (v / 1024)).card := by
            apply PageDir.card_tables_le
            intro i there
            have other : i ≠ v / 1024 := by
              intro here
              rw [here, missing] at there
              cases there
            rcases more i there with before | ⟨w, low, high, -⟩
            · exact Finset.mem_erase.mpr ⟨other, within tables old needed i before⟩
            · omega
          have present := Finset.card_erase_add_one (needed v start inside)
          rw [user_congr same, grown.count, card_singleton] at taken
          omega
        · intro pd'' m'' walked tabled look
          have next : (PGSIZE * v + PGSIZE) % 2 ^ 32 = PGSIZE * (v + 1) := by
            unfold PGSIZE
            omega
          dsimp only
          rw [next]
          exact ih (v + 1) (by omega) (by omega) (by omega)
            (grown.step start (by omega) free list walked tabled look)
    · rw [if_neg (by rw [page_lt_iff]; exact inside)]
      obtain rfl : v = pagesFor newsz := by omega
      exact wp_pure.mpr (done pd' m' grown)

theorem wp_allocuvm (small : oldsz ≤ KERNBASE)
    (usable : m.Usable (m.pages pd)) (absent : ∀ w < UPAGES, pagesFor oldsz ≤ w → pd.lookup w = none)
    (large : newsz ≥ KERNBASE → post (pd, 0) m) (shrinks : newsz < KERNBASE → newsz < oldsz → post (pd, oldsz) m)
    (failed : ∀ pd' m', Undone m m' pd pd' 0 → Short m pd (pagesFor oldsz) (pagesFor newsz) → post (pd', 0) m')
    (done : newsz < KERNBASE → oldsz ≤ newsz → ∀ pd' m', Grown m m' pd pd' (pagesFor oldsz) (pagesFor newsz) → post (pd', newsz) m') :
    wp (allocuvm pd oldsz newsz) post stop m := by
  unfold allocuvm
  split
  next high => exact wp_pure.mpr (large high)
  next low =>
    have below : newsz < KERNBASE := by omega
    have top := pagesFor_le (Nat.le_of_lt below)
    have order := upages_eq
    split
    next fewer => exact wp_pure.mpr (shrinks below fewer)
    next more =>
      rw [pgroundup_eq small]
      exact wp_allocuvmFrom (2 ^ 20) _ oldsz newsz (Nat.le_of_lt below) (Nat.le_refl _) (pagesFor_mono (by omega)) (by omega)
        usable (fun w old new_ => absent w (by omega) old) (.refl m pd _) failed (done below (by omega))

end Alloc

end Xv6.Vm
