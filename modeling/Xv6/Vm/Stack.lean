import Xv6.Vm.Load

/-! The user stack that `exec` makes: the guard page, the arguments, and where `copyout` is asked to
put them. -/

namespace Xv6.Vm
open Lib List

def USER : BitVec 12 := PTE_W ||| PTE_U ||| PTE_P

/-- A directory with `n` pages of program, a guard page and a stack page. -/
structure Guarded (pd : PageDir) (n : Nat) : Prop where
  tables : ∀ i, (pd.table i).isSome = true ↔ HasTable (n + 2) i
  kernel : ∀ w, UPAGES ≤ w → w < 2 ^ 20 → ∀ e, pd.lookup w = some e → e.user = false
  user : ∀ w < n + 2, w ≠ n → ∃ page, pd.lookup w = some ⟨page, USER⟩
  guard : ∃ page, pd.lookup n = some ⟨page, USER &&& ~~~PTE_U⟩

theorem present_guard (page : Nat) : (⟨page, USER &&& ~~~PTE_U⟩ : Pte).present = true := by
  unfold Pte.present
  exact decide_eq_true (by dsimp only; decide)

theorem user_guard (page : Nat) : (⟨page, USER &&& ~~~PTE_U⟩ : Pte).user = false := by
  unfold Pte.user
  exact decide_eq_false (by dsimp only; decide)

theorem user_user (page : Nat) : (⟨page, USER⟩ : Pte).user = true := by
  unfold Pte.user
  exact decide_eq_true (by dsimp only; decide)

theorem present_user (page : Nat) : (⟨page, USER⟩ : Pte).present = true := by
  unfold Pte.present
  exact decide_eq_true (by dsimp only; decide)

variable {va page : Nat}

variable {m m' : Mem} {pd : PageDir} {stop : Stop → Prop}

section Alloc

theorem PageDir.userByte_congr {pd' : PageDir} (same : ∀ w < UPAGES, (pd'.lookup w).map Pte.ppn = (pd.lookup w).map Pte.ppn)
    (below : va < KERNBASE) : Vm.userByte m pd' va = Vm.userByte m pd va := by
  have here := same _ (div_lt_upages below)
  unfold Vm.userByte
  cases first : pd'.lookup (va / PGSIZE) with
  | none =>
    rw [first] at here
    rw [Option.map_eq_none_iff.mp here.symm]
  | some e =>
    rw [first] at here
    obtain ⟨f, second, ppn⟩ := Option.map_eq_some_iff.mp here.symm
    rw [second, Option.elim_some, Option.elim_some, ppn]

theorem wp_clearpteu {post : PageDir → Mem → Prop} {n : Nat} (inside : n < UPAGES) (mapped : pd.lookup n = some ⟨page, USER⟩)
    (done : ∀ pd', (∀ i, (pd'.table i).isSome = (pd.table i).isSome) → m.pages pd' = m.pages pd → pd'.page = pd.page →
      (∀ w < 2 ^ 20, pd'.lookup w = if w = n then some ⟨page, USER &&& ~~~PTE_U⟩ else pd.lookup w) → post pd' m) :
    wp (clearpteu pd (PGSIZE * n)) post stop m := by
  have order := upages_le
  obtain ⟨there, -⟩ := PageDir.pte_of_lookup mapped
  unfold clearpteu
  rw [there]
  have look : ∀ w < 2 ^ 20, (pd.setPte (PGSIZE * n) ⟨page, USER &&& ~~~PTE_U⟩).lookup w =
      if w = n then some ⟨page, USER &&& ~~~PTE_U⟩ else pd.lookup w := by
    intro w below
    rw [PageDir.lookup_setPte (by omega) below there, present_guard, if_pos rfl]
  refine wp_pure.mpr (done _ (fun i => PageDir.table_setPte ..) ?_ (PageDir.page_setPte ..) look)
  have user := gathered_change (g := Pte.ppn) inside
    (fun w below apart => (look w (by omega)).trans (if_neg apart))
  rw [mapped, look n (by omega), if_pos rfl] at user
  rw [Mem.pages, Mem.pages, PageDir.tables_setPte]
  congr 1
  exact add_right_cancel user

theorem wp_allocStack {post : PageDir × Option Nat → Mem → Prop} {sz : Nat} (building : Building m m' pd)
    (space : Space pd (pagesFor sz)) (below : sz < KERNBASE) (nodup : m.freelist.Nodup) (usable : m.Usable m.freelist)
    (failed : ∀ pd' m'', Building m m'' pd' →
      (PGSIZE * (pagesFor sz + 2) < KERNBASE → m.freelist.length < pagesNeeded (pagesFor sz + 2)) → post (pd', none) m'')
    (done : ∀ pd' m'', PGSIZE * (pagesFor sz + 2) < KERNBASE → pagesNeeded (pagesFor sz + 2) ≤ m.freelist.length →
      Building m m'' pd' → Guarded pd' (pagesFor sz) →
      (∀ va < KERNBASE, userByte m'' pd' va = userByte m' pd va) → post (pd', some (PGSIZE * (pagesFor sz + 2))) m'') :
    wp (allocStack pd sz) post stop m' := by
  have order := upages_eq
  have top := pagesFor_le (Nat.le_of_lt below)
  have old : PGSIZE * pagesFor sz ≤ KERNBASE := by
    unfold PGSIZE KERNBASE
    omega
  have two : PGSIZE * pagesFor sz + 2 * PGSIZE = PGSIZE * (pagesFor sz + 2) := by
    rw [Nat.mul_add, Nat.mul_comm 2]
  have count := pagesFor_mul (pagesFor sz + 2)
  have sound := building.sound nodup usable
  unfold allocStack
  dsimp only
  rw [wp_bind, pgroundup_eq (Nat.le_of_lt below), two]
  generalize size : PGSIZE * (pagesFor sz + 2) = newsz at failed done two count ⊢
  apply wp_allocuvm old sound.usable
  · intro w inside high
    rw [pagesFor_mul] at high
    exact space.absent w high inside
  · intro large
    dsimp only
    rw [if_pos rfl]
    exact wp_pure.mpr (failed pd m' building fun small => absurd small (Nat.not_lt.mpr large))
  · intro _ fewer
    omega
  · intro pd₁ m₁ undone short
    dsimp only
    rw [if_pos rfl]
    refine wp_pure.mpr (failed pd₁ m₁ (building.undone undone) fun small => ?_)
    rw [pagesFor_mul, count] at short
    exact building.short space (by omega) (by unfold PGSIZE KERNBASE at *; omega) short
  · intro small _ pd₁ m₁ grown
    rw [pagesFor_mul, count] at grown
    have high : pagesFor sz + 2 ≤ UPAGES := by
      unfold PGSIZE KERNBASE at *
      omega
    have space₁ := space.grown (by omega) high grown
    have building₁ := building.grown grown
    obtain ⟨page, mapped⟩ := space₁.user (pagesFor sz) (by omega)
    have positive : ¬ newsz = 0 := by
      unfold PGSIZE at size
      omega
    have guard : newsz - 2 * PGSIZE = PGSIZE * pagesFor sz := by omega
    dsimp only
    rw [if_neg positive, guard, wp_bind]
    apply wp_clearpteu (by omega) mapped
    intro pd₂ tables pages own look
    refine wp_pure.mpr (done pd₂ m₁ small ?_ (building₁.step rfl pages own fun _ _ => rfl) ?_ ?_)
    · have total := building₁.card space₁ high
      omega
    · refine ⟨fun i => by rw [tables i]; exact space₁.tables i, fun w low within e there => ?_, fun w inside other => ?_, page, ?_⟩
      · rw [look w within, if_neg (by omega)] at there
        exact space₁.kernel w low within e there
      · rw [look w (by omega), if_neg other]
        exact space₁.user w inside
      · rw [look _ (by omega), if_pos rfl]
    · intro va inside
      rw [← grown.userByte sound space.absent inside]
      apply PageDir.userByte_congr _ inside
      intro w within
      rw [look w (by omega)]
      split
      next here =>
        rw [here, mapped]
        rfl
      next => rfl

end Alloc

section Copyout

variable {n va : Nat} {buf : List UInt8}

theorem uva2ka_denied {post : Option Nat → Mem → Prop} (denied : ∀ e, pd.lookup (va / PGSIZE) = some e → e.user = false)
    (none_ : (pd.pte (pgrounddown va)).isSome = true → post none m)
    (missing : pd.pte (pgrounddown va) = none → stop .nullPte) : wp (uva2ka pd (pgrounddown va)) post stop m := by
  rw [pgrounddown_eq] at none_ missing ⊢
  unfold uva2ka
  cases there : pd.pte (PGSIZE * (va / PGSIZE)) with
  | none => exact wp_throw.mpr (missing there)
  | some e =>
    rw [there] at none_
    have nothing : (if e.present = false then none else if e.user = false then none else some e.ppn) = none := by
      cases present : e.present with
      | false => rfl
      | true =>
        rw [denied e (PageDir.lookup_eq_some there present)]
        rfl
    dsimp only
    rw [nothing]
    exact wp_pure.mpr (none_ rfl)

theorem uva2ka_user {post : Option Nat → Mem → Prop} (mapped : pd.lookup (va / PGSIZE) = some ⟨page, USER⟩)
    (here : post (some page) m) : wp (uva2ka pd (pgrounddown va)) post stop m := by
  rw [pgrounddown_eq]
  unfold uva2ka
  rw [(PageDir.pte_of_lookup mapped).1]
  dsimp only
  rw [present_user, user_user]
  exact wp_pure.mpr here

theorem Guarded.isSome (guarded : Guarded pd n) (va : Nat) :
    (pd.pte (pgrounddown va)).isSome = true ↔ HasTable (n + 2) (pdx va) := by
  rw [PageDir.pte_isSome, guarded.tables]
  have same : pdx (pgrounddown va) = pdx va := by
    unfold pgrounddown pdx PGSIZE
    omega
  rw [same]

theorem Guarded.copyout_kernel {post : Bool → Mem → Prop} (guarded : Guarded pd n) (low : KERNBASE ≤ va) (below : va < 2 ^ 32)
    (some_ : buf ≠ []) (refused : HasTable (n + 2) (pdx va) → post false m)
    (faults : ¬ HasTable (n + 2) (pdx va) → stop .nullPte) : wp (copyout pd va buf) post stop m := by
  have order := upages_eq
  obtain ⟨byte, rest, rfl⟩ := exists_cons_of_ne_nil some_
  unfold copyout
  rw [length_cons]
  unfold copyoutFrom
  rw [length_cons, if_pos (Nat.succ_pos _), wp_bind]
  apply uva2ka_denied
  · intro e mapped
    exact guarded.kernel _ (by unfold PGSIZE KERNBASE at *; omega) (by unfold PGSIZE; omega) e mapped
  · intro there
    exact wp_pure.mpr (refused ((guarded.isSome va).mp there))
  · intro missing
    apply faults
    rw [← guarded.isSome va, missing]
    exact nofun

theorem wp_copyoutFrom_page {post : Bool → Mem → Prop} {fuel : Nat} (sound : Sound m pd) (inside : va / PGSIZE < UPAGES)
    (mapped : pd.lookup (va / PGSIZE) = some ⟨page, USER⟩) (some_ : 0 < buf.length)
    (rest : ∀ m', Written m m' pd → (∀ a < KERNBASE, userByte m' pd a =
      if va ≤ a ∧ a < va + min (PGSIZE - va % PGSIZE) buf.length then buf.getD (a - va) 0 else userByte m pd a) →
      wp (copyoutFrom fuel pd (PGSIZE * (va / PGSIZE + 1)) (buf.drop (min (PGSIZE - va % PGSIZE) buf.length))) post stop m') :
    wp (copyoutFrom (fuel + 1) pd va buf) post stop m := by
  have order := upages_eq
  have offset : va - pgrounddown va = va % PGSIZE := by
    unfold pgrounddown PGSIZE
    omega
  have next : (pgrounddown va + PGSIZE) % 2 ^ 32 = PGSIZE * (va / PGSIZE + 1) := by
    unfold pgrounddown PGSIZE at *
    omega
  unfold copyoutFrom
  rw [if_pos some_, wp_bind]
  apply uva2ka_user mapped
  dsimp only
  rw [wp_bind, wp_get, wp_bind, next, offset]
  apply wp_setPage_user sound inside mapped
  intro m' written bytes
  refine rest m' written fun a below => ?_
  have within : a % PGSIZE < PGSIZE := Nat.mod_lt _ (by decide)
  generalize size : min (PGSIZE - va % PGSIZE) buf.length = k
  have length : (buf.take k).length = k := by
    rw [length_take]
    omega
  rw [bytes a below]
  by_cases same : a / PGSIZE = va / PGSIZE
  · rw [if_pos same, size, Bytes.get_blit _ _ _ within, length]
    by_cases here : va % PGSIZE ≤ a % PGSIZE ∧ a % PGSIZE < va % PGSIZE + k
    · have place : a % PGSIZE - va % PGSIZE = a - va := by
        unfold PGSIZE at *
        omega
      rw [if_pos here, if_pos (by unfold PGSIZE at *; omega), place, getD_eq_getElem?_getD, getD_eq_getElem?_getD,
        List.getElem?_take_of_lt (by unfold PGSIZE at *; omega)]
    · rw [if_neg here, if_neg (by unfold PGSIZE at *; omega), userByte, same, mapped]
      rfl
  · rw [if_neg same, if_neg (by unfold PGSIZE at *; omega)]

theorem Guarded.copyout_guard {post : Bool → Mem → Prop} (guarded : Guarded pd n) (sound : Sound m pd) (top : n + 2 ≤ UPAGES)
    (low : va < PGSIZE * (n + 1)) (reaches : PGSIZE * n < va + buf.length) (some_ : 0 < buf.length)
    (refused : ∀ m', Written m m' pd → post false m') : wp (copyout pd va buf) post stop m := by
  have order := upages_eq
  unfold copyout
  generalize bound : buf.length = fuel
  replace bound : buf.length ≤ fuel := Nat.le_of_eq bound
  induction fuel generalizing va buf m with
  | zero => omega
  | succ fuel ih =>
    have page : va / PGSIZE ≤ n := by
      unfold PGSIZE at *
      omega
    by_cases here : va / PGSIZE = n
    · obtain ⟨ppn, mapped⟩ := guarded.guard
      unfold copyoutFrom
      rw [if_pos some_, wp_bind]
      apply uva2ka_denied
      · intro e there
        rw [here, mapped] at there
        obtain rfl := Option.some.inj there
        exact user_guard ppn
      · intro _
        exact wp_pure.mpr (refused m (.refl m pd))
      · intro missing
        have table := (guarded.isSome va).mpr ((hasTable_iff (n + 2) (pdx va)).mpr
          (.inl ⟨va / PGSIZE, by omega, by unfold pdx PGSIZE at *; omega⟩))
        rw [missing] at table
        cases table
    · obtain ⟨ppn, mapped⟩ := guarded.user (va / PGSIZE) (by omega) here
      apply wp_copyoutFrom_page sound (by omega) mapped some_
      intro m' written _
      have length : (buf.drop (min (PGSIZE - va % PGSIZE) buf.length)).length = buf.length - (PGSIZE - va % PGSIZE) := by
        rw [length_drop]
        omega
      apply ih (written.sound sound)
      · unfold PGSIZE at *
        omega
      · rw [length]
        unfold PGSIZE at *
        omega
      · rw [length]
        unfold PGSIZE at *
        omega
      · intro m'' written'
        exact refused m'' (written.trans written')
      · rw [length]
        unfold PGSIZE at *
        omega

theorem Guarded.copyout_stack {post : Bool → Mem → Prop} (guarded : Guarded pd n) (sound : Sound m pd) (top : n + 2 ≤ UPAGES)
    (low : PGSIZE * (n + 1) ≤ va) (fits : va + buf.length ≤ PGSIZE * (n + 2)) (some_ : buf ≠ [])
    (done : ∀ m', Written m m' pd → (∀ a < KERNBASE, userByte m' pd a =
      if va ≤ a ∧ a < va + buf.length then buf.getD (a - va) 0 else userByte m pd a) → post true m') :
    wp (copyout pd va buf) post stop m := by
  have page : va / PGSIZE = n + 1 := by
    have := length_pos_iff.mpr some_
    unfold PGSIZE at *
    omega
  have whole : min (PGSIZE - va % PGSIZE) buf.length = buf.length := by
    unfold PGSIZE at *
    omega
  obtain ⟨ppn, mapped⟩ := guarded.user (n + 1) (by omega) (by omega)
  obtain ⟨fuel, length⟩ : ∃ fuel, buf.length = fuel + 1 := ⟨buf.length - 1, by have := length_pos_iff.mpr some_; omega⟩
  unfold copyout
  rw [length]
  apply wp_copyoutFrom_page sound (by omega) (page ▸ mapped) (by omega)
  intro m' written bytes
  rw [whole] at bytes
  rw [whole, drop_length]
  have last := done m' written bytes
  cases fuel <;> exact wp_pure.mpr last

end Copyout

/-- The place of the first argument that does not go to the stack page. -/
def overflow (sz : Nat) : Nat → List (List UInt8) → Option Nat
  | _, [] => none
  | sp, arg :: argv =>
    let place := argPlace sp arg.length
    if sz - PGSIZE ≤ place ∧ place < sz then overflow sz place argv else some place

def places : Nat → List (List UInt8) → List Nat
  | _, [] => []
  | sp, arg :: argv => argPlace sp arg.length :: places (argPlace sp arg.length) argv

def lastPlace : Nat → List (List UInt8) → Nat
  | sp, [] => sp
  | sp, arg :: argv => lastPlace (argPlace sp arg.length) argv

def copied (place : Nat) (buf : List UInt8) (base : Nat → UInt8) (va : Nat) : UInt8 :=
  if place ≤ va ∧ va < place + buf.length then buf.getD (va - place) 0 else base va

def pushed : List Nat → List (List UInt8) → (Nat → UInt8) → Nat → UInt8
  | place :: rest, arg :: argv, base => pushed rest argv (copied place (arg ++ [0]) base)
  | _, _, base => base

section Push

variable {n : Nat}

variable {argv : List (List UInt8)}

theorem pushed_congr {ptrs : List Nat} {base other : Nat → UInt8}
    (same : base va = other va) : pushed ptrs argv base va = pushed ptrs argv other va := by
  induction ptrs generalizing argv base other with
  | nil =>
    cases argv <;> exact same
  | cons place rest ih =>
    cases argv with
    | nil => exact same
    | cons arg argv =>
      rw [pushed, pushed]
      apply ih
      rw [copied, copied, same]

theorem argPlace_cases {sp length : Nat} (top : PGSIZE * (n + 2) < KERNBASE) (low : PGSIZE * (n + 1) ≤ sp)
    (high : sp ≤ PGSIZE * (n + 2)) (short : length < KERNBASE) :
    (PGSIZE * (n + 1) ≤ argPlace sp length ∧ argPlace sp length + (length + 1) ≤ sp) ∨
    (argPlace sp length < PGSIZE * (n + 1) ∧ PGSIZE * n < argPlace sp length + (length + 1)) ∨
    (KERNBASE ≤ argPlace sp length ∧ argPlace sp length < 2 ^ 32) := by
  unfold argPlace PGSIZE KERNBASE at *
  omega

theorem stackPage_iff {place : Nat} :
    (PGSIZE * (n + 2) - PGSIZE ≤ place ∧ place < PGSIZE * (n + 2)) ↔ PGSIZE * (n + 1) ≤ place ∧ place < PGSIZE * (n + 2) := by
  unfold PGSIZE
  omega

theorem hasTable_of_lt (below : va < PGSIZE * (n + 2)) (top : PGSIZE * (n + 2) < KERNBASE) :
    HasTable (n + 2) (pdx va) := by
  rw [hasTable_iff]
  refine .inl ⟨va / PGSIZE, ?_, ?_⟩
  · unfold PGSIZE at *
    omega
  · unfold pdx PGSIZE KERNBASE at *
    omega

theorem Guarded.wp_pushArgs {post : Option (Nat × List Nat) → Mem → Prop} (guarded : Guarded pd n) (sound : Sound m pd)
    (top : PGSIZE * (n + 2) < KERNBASE) {sp : Nat} {ptrs : List Nat} (low : PGSIZE * (n + 1) ≤ sp)
    (high : sp ≤ PGSIZE * (n + 2)) (few : ptrs.length ≤ MAXARG) (short : ∀ arg ∈ argv, arg.length < KERNBASE)
    (faults : ∀ va, overflow (PGSIZE * (n + 2)) sp argv = some va → ¬ HasTable (n + 2) (pdx va) → stop .nullPte)
    (failed : ∀ m', Written m m' pd → (ptrs.length + argv.length ≤ MAXARG →
      ∃ va, overflow (PGSIZE * (n + 2)) sp argv = some va ∧ HasTable (n + 2) (pdx va)) → post none m')
    (done : ∀ m', Written m m' pd → ptrs.length + argv.length ≤ MAXARG → overflow (PGSIZE * (n + 2)) sp argv = none →
      PGSIZE * (n + 1) ≤ lastPlace sp argv →
      lastPlace sp argv ≤ PGSIZE * (n + 2) → (∀ va < KERNBASE, userByte m' pd va = pushed (places sp argv) argv (userByte m pd) va) →
      post (some (lastPlace sp argv, ptrs ++ places sp argv)) m') :
    wp (pushArgs pd argv sp ptrs) post stop m := by
  have order := upages_eq
  have pages : n + 2 ≤ UPAGES := by
    unfold PGSIZE KERNBASE at top
    omega
  induction argv generalizing m sp ptrs with
  | nil =>
    unfold pushArgs
    have here := done m (.refl m pd) few rfl low high fun _ _ => rfl
    rw [places, append_nil] at here
    exact wp_pure.mpr here
  | cons arg argv ih =>
    have length := short arg mem_cons_self
    have size : (arg ++ [0]).length = arg.length + 1 := by
      rw [length_append]
      rfl
    unfold pushArgs
    rw [length_cons] at failed done
    by_cases full : ptrs.length ≥ MAXARG
    · rw [if_pos full]
      exact wp_pure.mpr (failed m (.refl m pd) fun few => by omega)
    rw [if_neg full, wp_bind]
    unfold overflow at faults failed done
    dsimp only at faults failed done
    have nonempty : arg ++ [0] ≠ [] := append_ne_nil_of_right_ne_nil _ (cons_ne_nil _ _)
    have where_ := argPlace_cases top low high length
    rw [places, lastPlace, pushed, ← singleton_append] at done
    simp only [stackPage_iff] at faults failed done
    generalize argPlace sp arg.length = place at faults failed done where_ ⊢
    rcases where_ with ⟨first, last⟩ | ⟨below, reaches⟩ | ⟨above, whole⟩
    · have inside : PGSIZE * (n + 1) ≤ place ∧ place < PGSIZE * (n + 2) := ⟨first, by omega⟩
      rw [if_pos inside] at faults failed done
      apply guarded.copyout_stack sound pages first (by omega) nonempty
      intro m' written bytes
      rw [if_pos rfl]
      have count : (ptrs ++ [place]).length = ptrs.length + 1 := by rw [length_append, length_singleton]
      apply ih (written.sound sound) first (by omega) (by omega) (fun other member => short other (mem_cons_of_mem _ member)) faults
      · intro m'' written' overlong
        exact failed m'' (written.trans written') fun few => overlong (by omega)
      · intro m'' written' few' none low' high' bytes'
        rw [append_assoc]
        refine done m'' (written.trans written') (by omega) none low' high' fun va below => ?_
        rw [bytes' va below]
        exact pushed_congr (bytes va below)
    · rw [if_neg (by omega)] at faults failed
      apply guarded.copyout_guard sound pages below (by omega) (by omega)
      intro m' written
      refine wp_pure.mpr (failed m' written fun _ => ⟨_, rfl, hasTable_of_lt ?_ top⟩)
      exact Nat.lt_of_lt_of_le below (Nat.mul_le_mul_left _ (by omega))
    · rw [if_neg (by omega)] at faults failed
      apply guarded.copyout_kernel above whole nonempty
      · intro table
        exact wp_pure.mpr (failed m (.refl m pd) fun _ => ⟨_, rfl, table⟩)
      · intro missing
        exact faults _ rfl missing

/-- The arguments and `ustack` fit in the stack page. -/
def Fits (sz : Nat) (argv : List (List UInt8)) : Prop :=
  overflow sz sz argv = none ∧ sz - PGSIZE + 4 * (argv.length + 4) ≤ lastPlace sz argv

instance (sz : Nat) (argv : List (List UInt8)) : Decidable (Fits sz argv) := inferInstanceAs (Decidable (_ ∧ _))

theorem length_places (sp : Nat) (argv : List (List UInt8)) : (places sp argv).length = argv.length := by
  induction argv generalizing sp with
  | nil => rfl
  | cons arg argv ih => rw [places, length_cons, length_cons, ih]

theorem length_ustack (sp : Nat) (ptrs : List Nat) : ((ustack sp ptrs).flatMap wordBytes).length = 4 * (ptrs.length + 4) := by
  have each : ∀ words : List Nat, (words.flatMap wordBytes).length = 4 * words.length := by
    intro words
    induction words with
    | nil => rfl
    | cons word words ih =>
      rw [flatMap_cons, length_append, ih, length_cons]
      unfold wordBytes
      simp only [length_cons, length_nil]
      omega
  rw [each]
  unfold ustack
  simp only [length_append, length_cons, length_nil]
  omega

/-- The bytes of the stack when it is done. -/
def stacked (sz : Nat) (argv : List (List UInt8)) (base : Nat → UInt8) : Nat → UInt8 :=
  copied (lastPlace sz argv - 4 * (argv.length + 4)) ((ustack (lastPlace sz argv) (places sz argv)).flatMap wordBytes)
    (pushed (places sz argv) argv base)

theorem Guarded.wp_pushStack {post : Option Nat → Mem → Prop} (guarded : Guarded pd n) (sound : Sound m pd)
    (top : PGSIZE * (n + 2) < KERNBASE) (short : ∀ arg ∈ argv, arg.length < KERNBASE)
    (faults : ∀ va, overflow (PGSIZE * (n + 2)) (PGSIZE * (n + 2)) argv = some va → ¬ HasTable (n + 2) (pdx va) → stop .nullPte)
    (failed : ∀ m', Written m m' pd → (argv.length ≤ MAXARG → ¬ Fits (PGSIZE * (n + 2)) argv ∧
      ∀ va, overflow (PGSIZE * (n + 2)) (PGSIZE * (n + 2)) argv = some va → HasTable (n + 2) (pdx va)) → post none m')
    (done : ∀ m', Written m m' pd → Fits (PGSIZE * (n + 2)) argv →
      (∀ va < KERNBASE, userByte m' pd va = stacked (PGSIZE * (n + 2)) argv (userByte m pd) va) →
      post (some (lastPlace (PGSIZE * (n + 2)) argv - 4 * (argv.length + 4))) m') :
    wp (pushStack pd argv (PGSIZE * (n + 2))) post stop m := by
  have order := upages_eq
  have pages : n + 2 ≤ UPAGES := by
    unfold PGSIZE KERNBASE at top
    omega
  unfold pushStack
  rw [wp_bind]
  apply guarded.wp_pushArgs sound top (Nat.mul_le_mul_left _ (by omega)) (Nat.le_refl _) (Nat.zero_le _) short faults
  · intro m' written overlong
    refine wp_pure.mpr (failed m' written fun few => ?_)
    obtain ⟨va, place, table⟩ := overlong (by rw [length_nil, Nat.zero_add]; exact few)
    refine ⟨fun fits => ?_, fun other same => ?_⟩
    · rw [fits.1] at place
      cases place
    · obtain rfl := Option.some.inj (place.symm.trans same)
      exact table
  · intro m' written few none low high bytes
    rw [length_nil, Nat.zero_add] at few
    have size := length_ustack (lastPlace (PGSIZE * (n + 2)) argv) (places (PGSIZE * (n + 2)) argv)
    rw [length_places] at size
    have page : PGSIZE * (n + 2) - PGSIZE = PGSIZE * (n + 1) := by
      unfold PGSIZE
      omega
    have room : 4 * (argv.length + 4) ≤ 4 * (MAXARG + 4) := by omega
    have frame : 4 * (MAXARG + 4) < PGSIZE := by decide
    dsimp only
    rw [nil_append, length_places, wp_bind]
    have fits_iff : Fits (PGSIZE * (n + 2)) argv ↔
        PGSIZE * (n + 1) + 4 * (argv.length + 4) ≤ lastPlace (PGSIZE * (n + 2)) argv := by
      rw [Fits, page]
      exact and_iff_right none
    unfold stacked at done
    generalize (ustack (lastPlace (PGSIZE * (n + 2)) argv) (places (PGSIZE * (n + 2)) argv)).flatMap wordBytes = words
      at size done ⊢
    generalize lastPlace (PGSIZE * (n + 2)) argv = sp at low high fits_iff done ⊢
    have stack : PGSIZE ≤ PGSIZE * (n + 1) := Nat.le_mul_of_pos_right _ (Nat.succ_pos n)
    have place : (sp + 2 ^ 32 - (3 + argv.length + 1) * 4) % 2 ^ 32 = sp - 4 * (argv.length + 4) := by
      unfold KERNBASE at top
      omega
    rw [place]
    by_cases fits : PGSIZE * (n + 1) + 4 * (argv.length + 4) ≤ sp
    · apply guarded.copyout_stack (written.sound sound) pages (by omega) (by omega)
      · intro empty
        rw [empty, length_nil] at size
        omega
      · intro m'' written' bytes'
        refine wp_pure.mpr (done m'' (written.trans written') (fits_iff.mpr fits) fun va below => ?_)
        rw [bytes' va below, copied, bytes va below]
    · have guard : PGSIZE * (n + 1) = PGSIZE * n + PGSIZE := Nat.mul_succ ..
      apply guarded.copyout_guard (written.sound sound) pages (by omega) (by omega) (by omega)
      intro m'' written'
      refine wp_pure.mpr (failed m'' (written.trans written') fun _ => ⟨fun both => fits (fits_iff.mp both), fun va overlong => ?_⟩)
      rw [none] at overlong
      cases overlong

end Push

end Xv6.Vm
