import Xv6.Vm.Stack

/-! `exec` as a whole: the image that it makes, and when it follows a missing page table. -/

namespace Xv6.Vm
open Lib Option
open Multiset (coe_nodup disjoint_left mem_add mem_coe mem_of_le mem_singleton nodup_add nodup_singleton)

def elfOf (file : List UInt8) : Elfhdr := Elfhdr.ofBytes (file.take ELFHDR)

def segmentsOf (file : List UInt8) : List Proghdr := segments file (elfOf file).phnum (elfOf file).phoff

/-- The size that the file asks for, if it can be loaded. -/
def imageSize (file : List UInt8) : Option Nat :=
  if ELFHDR ≤ file.length ∧ (elfOf file).magic = ELF_MAGIC then
    match segmentsSize file (elfOf file).phnum (elfOf file).phoff 0 with
    | none => none
    | some sz => if pgroundup sz + 2 * PGSIZE < KERNBASE then some (pgroundup sz + 2 * PGSIZE) else none
  else none

/-- No page is in two places, the allocator takes all of them back, and the kernel is linked. -/
structure Ready (m : Mem) (p : Proc) : Prop where
  nodup : (m.pages p.pgdir + {p.pgdir.page}).Nodup
  usable : m.Usable (m.pages p.pgdir + {p.pgdir.page})
  linked : m.Linked

/-- There are pages for the image, and the first argument that leaves the stack page goes where
there is no page table. -/
def Faults (m : Mem) (file : List UInt8) (argv : List (List UInt8)) : Prop :=
  ∃ sz va, imageSize file = some sz ∧ pagesNeeded (sz / PGSIZE) ≤ m.freelist.length ∧ overflow sz sz argv = some va ∧
    ¬ HasTable (sz / PGSIZE) (pdx va)

def Runs (m : Mem) (file : List UInt8) (argv : List (List UInt8)) : Prop :=
  ∃ sz, imageSize file = some sz ∧ pagesNeeded (sz / PGSIZE) ≤ m.freelist.length ∧ Fits sz argv

section Image

variable {m m' : Mem} {pd : PageDir} {file : List UInt8} {argv : List (List UInt8)} {p : Proc} {stop : Stop → Prop}

theorem stacked_congr {sz va : Nat} {base other : Nat → UInt8} (same : base va = other va) :
    stacked sz argv base va = stacked sz argv other va := by
  unfold stacked copied
  rw [pushed_congr same]

theorem readAll_header : readAll file 0 ELFHDR = if ELFHDR ≤ file.length then some (file.take ELFHDR) else none := by
  unfold readAll readi
  rw [if_neg (by omega), List.drop_zero, filter_some, List.length_take]
  by_cases long : ELFHDR ≤ file.length
  · rw [if_pos long, Nat.min_eq_left long, decide_eq_true rfl, if_pos rfl]
  · rw [if_neg long, decide_eq_false (by omega)]
    rfl

theorem imageSize_ge {sz : Nat} (image : imageSize file = some sz) : 2 ≤ sz / PGSIZE := by
  unfold imageSize at image
  split at image
  · split at image
    · cases image
    · split at image
      · obtain rfl := some.inj image
        unfold PGSIZE
        omega
      · cases image
  · cases image

theorem Building.wp_freevm_other {post : Unit → Mem → Prop} {old : PageDir} (building : Building m m' pd)
    (nodup : (m.pages old + {old.page}).Nodup) (usable : m.Usable (m.pages old + {old.page}))
    (done : ∀ m'', (∀ va < KERNBASE, userByte m'' pd va = userByte m' pd va) → post () m'') :
    wp (freevm old) post stop m' := by
  have fewer : m'.pages old + {old.page} ≤ m.pages old + {old.page} := by
    rw [Mem.pages, Mem.pages]
    gcongr
    exact building.freelist_le
  apply Vm.wp_freevm
  · intro page member
    rw [building.frame]
    exact usable page (mem_of_le fewer member)
  · intro m'' _ list content
    refine done m'' fun va below => ?_
    unfold userByte
    cases mapped : pd.lookup (va / PGSIZE) with
    | none => rfl
    | some e =>
      rw [elim_some, elim_some, content]
      intro member
      have user : e.ppn ∈ pd.user := mem_gathered.mpr ⟨_, div_lt_upages below, e, mapped, rfl⟩
      have free : e.ppn ∈ (m.freelist : Multiset Nat) := by
        rw [← building.pages, Mem.pages]
        exact mem_add.mpr (.inl (mem_add.mpr (.inr user)))
      rw [← mem_coe, list, Mem.pages, add_assoc, add_assoc, mem_add] at member
      rw [Mem.pages, add_assoc, add_assoc] at nodup
      rcases member with still | theirs
      · have whole : (m'.pages pd + {pd.page}).Nodup := by
          rw [building.pages]
          exact (nodup_add.mp nodup).1
        rw [Mem.pages, nodup_add, nodup_add] at whole
        exact disjoint_left.mp whole.1.2.2 (mem_add.mpr (.inl still)) user
      · exact disjoint_left.mp (nodup_add.mp nodup).2.2 free theirs

theorem neither (not : ∀ sz, imageSize file = some sz → pagesNeeded (sz / PGSIZE) ≤ m.freelist.length → False) :
    ¬ Faults m file argv ∧ ¬ Runs m file argv :=
  ⟨fun ⟨sz, _, image, enough, _⟩ => not sz image enough, fun ⟨sz, image, enough, _⟩ => not sz image enough⟩

theorem wp_buildImage {post : PageDir × Option (Nat × Nat) → Mem → Prop} (building : Building m m' pd) (space : Space pd 0)
    (nodup : m.freelist.Nodup) (usable : m.Usable m.freelist) (small : file.length < 2 ^ 32)
    (header : ELFHDR ≤ file.length ∧ (elfOf file).magic = ELF_MAGIC) (short : ∀ arg ∈ argv, arg.length < KERNBASE)
    (faults : Faults m file argv → stop .nullPte)
    (failed : ∀ pd' m'', Building m m'' pd' → (argv.length ≤ MAXARG → ¬ Faults m file argv ∧ ¬ Runs m file argv) → post (pd', none) m'')
    (done : ∀ n pd' m'', Building m m'' pd' → imageSize file = some (PGSIZE * (n + 2)) → ¬ Faults m file argv →
      (∃ sz, segmentsSize file (elfOf file).phnum (elfOf file).phoff 0 = some sz ∧ n = pagesFor sz) →
      PGSIZE * (n + 2) < KERNBASE → Fits (PGSIZE * (n + 2)) argv → Guarded pd' n →
      (∀ va < KERNBASE, userByte m'' pd' va =
        stacked (PGSIZE * (n + 2)) argv (loaded file (segmentsOf file) fun _ => 0) va) →
      post (pd', some (PGSIZE * (n + 2), lastPlace (PGSIZE * (n + 2)) argv - 4 * (argv.length + 4))) m'') :
    wp (buildImage file (elfOf file) argv pd) post stop m' := by
  have size : ∀ sz, segmentsSize file (elfOf file).phnum (elfOf file).phoff 0 = some sz → imageSize file =
      if PGSIZE * (pagesFor sz + 2) < KERNBASE then some (PGSIZE * (pagesFor sz + 2)) else none := by
    intro sz here
    have below := segmentsSize_lt here (by decide)
    have two : PGSIZE * pagesFor sz + 2 * PGSIZE = PGSIZE * (pagesFor sz + 2) := by
      rw [Nat.mul_add, Nat.mul_comm 2]
    rw [imageSize, if_pos header, here]
    dsimp only
    rw [pgroundup_eq (Nat.le_of_lt below), two]
  have zero : ∀ va < KERNBASE, userByte m' pd va = 0 := by
    intro va below
    rw [userByte, space.absent _ (Nat.zero_le _) (div_lt_upages below)]
    rfl
  unfold buildImage
  rw [wp_bind]
  apply wp_loadSegments _ _ 0 building space (by decide) nodup usable small
  · intro pd₁ m₁ building₁ fewer
    refine wp_pure.mpr (failed pd₁ m₁ building₁ fun _ => neither fun sz image enough => ?_)
    cases loads : segmentsSize file (elfOf file).phnum (elfOf file).phoff 0 with
    | none =>
      rw [imageSize, if_pos header, loads] at image
      cases image
    | some sz' =>
      rw [size sz' loads] at image
      split at image
      · obtain rfl := some.inj image
        rw [Nat.mul_div_cancel_left _ (by decide)] at enough
        have less := fewer sz' loads
        have more := pagesNeeded_mono (Nat.le_add_right (pagesFor sz') 2)
        omega
      · cases image
  · intro pd₁ m₁ sz loads building₁ space₁ bytes
    have below := segmentsSize_lt loads (by decide)
    dsimp only
    rw [wp_bind]
    apply wp_allocStack building₁ space₁ below nodup usable
    · intro pd₂ m₂ building₂ fewer
      refine wp_pure.mpr (failed pd₂ m₂ building₂ fun _ => neither fun sz' image enough => ?_)
      rw [size sz loads] at image
      split at image
      next top =>
        obtain rfl := some.inj image
        rw [Nat.mul_div_cancel_left _ (by decide)] at enough
        have := fewer top
        omega
      next => cases image
    · intro pd₂ m₂ top enough building₂ guarded bytes₂
      have image := size sz loads
      rw [if_pos top] at image
      have faults_iff : Faults m file argv ↔ ∃ va, overflow (PGSIZE * (pagesFor sz + 2)) (PGSIZE * (pagesFor sz + 2)) argv = some va ∧
          ¬ HasTable (pagesFor sz + 2) (pdx va) := by
        unfold Faults
        rw [image]
        constructor
        · rintro ⟨sz', va, same, -, place, missing⟩
          obtain rfl := some.inj same
          rw [Nat.mul_div_cancel_left _ (by decide)] at missing
          exact ⟨va, place, missing⟩
        · rintro ⟨va, place, missing⟩
          refine ⟨_, va, rfl, ?_, place, ?_⟩
          · rw [Nat.mul_div_cancel_left _ (by decide)]
            exact enough
          · rw [Nat.mul_div_cancel_left _ (by decide)]
            exact missing
      dsimp only
      rw [wp_bind]
      apply guarded.wp_pushStack (building₂.sound nodup usable) top short
      · intro va place missing
        exact faults (faults_iff.mpr ⟨va, place, missing⟩)
      · intro m₃ written none
        refine wp_pure.mpr (failed pd₂ m₃ (building₂.written written) fun few => ⟨?_, ?_⟩)
        · rw [faults_iff]
          rintro ⟨va, place, missing⟩
          exact missing ((none few).2 va place)
        · rintro ⟨sz', same, -, fits⟩
          obtain rfl := some.inj (image.symm.trans same)
          exact (none few).1 fits
      · intro m₃ written fits bytes₃
        refine wp_pure.mpr (done _ pd₂ m₃ (building₂.written written) image ?_ ⟨sz, loads, rfl⟩ top fits guarded fun va inside => ?_)
        · rw [faults_iff]
          rintro ⟨va, place, -⟩
          rw [fits.1] at place
          cases place
        · rw [bytes₃ va inside]
          apply stacked_congr
          rw [bytes₂ va inside, bytes va inside]
          exact loaded_congr (zero va inside)

theorem wp_exec {post : Proc × Int → Mem → Prop} (ready : Ready m p) (path : List UInt8) (small : file.length < 2 ^ 32)
    (short : ∀ arg ∈ argv, arg.length < KERNBASE) (faults : Faults m file argv → stop .nullPte)
    (failed : ∀ m', Restored m m' → (argv.length ≤ MAXARG → ¬ Faults m file argv ∧ ¬ Runs m file argv) → post (p, -1) m')
    (done : ∀ n pd m', imageSize file = some (PGSIZE * (n + 2)) → ¬ Faults m file argv →
      (∃ sz, segmentsSize file (elfOf file).phnum (elfOf file).phoff 0 = some sz ∧ n = pagesFor sz) →
      PGSIZE * (n + 2) < KERNBASE → Fits (PGSIZE * (n + 2)) argv → Guarded pd n →
      (∀ va < KERNBASE, userByte m' pd va =
        stacked (PGSIZE * (n + 2)) argv (loaded file (segmentsOf file) fun _ => 0) va) →
      post (⟨pd, PGSIZE * (n + 2), (elfOf file).entry, lastPlace (PGSIZE * (n + 2)) argv - 4 * (argv.length + 4),
        safestrcpy (lastFrom path path) 16⟩, 0) m') :
    wp (exec p path (some file) argv) post stop m := by
  have nodup : m.freelist.Nodup := by
    have whole := ready.nodup
    rw [Mem.pages, add_assoc, add_assoc] at whole
    exact coe_nodup.mp (nodup_add.mp whole).1
  have usable : m.Usable m.freelist := by
    intro page member
    apply ready.usable page
    rw [Mem.pages, add_assoc, add_assoc]
    exact mem_add.mpr (.inl member)
  have restored : Restored m m := ⟨rfl, rfl, fun _ _ => rfl⟩
  have bad : ¬ (ELFHDR ≤ file.length ∧ (elfOf file).magic = ELF_MAGIC) → ¬ Faults m file argv ∧ ¬ Runs m file argv := by
    intro not
    apply neither
    intro sz image
    rw [imageSize, if_neg not] at image
    cases image
  unfold exec
  dsimp only
  rw [readAll_header]
  by_cases long : ELFHDR ≤ file.length
  · rw [if_pos long]
    dsimp only
    change wp (if (elfOf file).magic ≠ ELF_MAGIC then _ else _) post stop m
    by_cases magic : (elfOf file).magic = ELF_MAGIC
    · rw [if_neg (not_not.mpr magic), wp_bind]
      apply wp_setupkvm usable ready.linked
      · intro m₁ back fewer
        refine wp_pure.mpr (failed m₁ back fun _ => neither fun sz image enough => ?_)
        have more := pagesNeeded_mono (imageSize_ge image)
        have two : pagesNeeded 0 < pagesNeeded 2 := by decide
        omega
      · intro pd m₁ building space
        dsimp only
        rw [wp_bind]
        apply wp_buildImage building space nodup usable small ⟨long, magic⟩ short faults
        · intro pd₂ m₂ building₂ safe
          dsimp only
          rw [wp_bind]
          apply building₂.wp_freevm usable
          intro m₃ back
          exact wp_pure.mpr (failed m₃ back safe)
        · intro n pd₂ m₂ building₂ image safe loads top fits guarded bytes
          dsimp only
          rw [wp_bind]
          apply building₂.wp_freevm_other ready.nodup ready.usable
          intro m₃ same
          refine wp_pure.mpr (done n pd₂ m₃ image safe loads top fits guarded fun va below => ?_)
          rw [same va below, bytes va below]
    · rw [if_pos magic]
      exact wp_pure.mpr (failed m restored fun _ => bad fun both => magic both.2)
  · rw [if_neg long]
    exact wp_pure.mpr (failed m restored fun _ => bad fun both => long both.1)

def Accepted (p : Proc) (argv : List (List UInt8)) : Prop := argv.length ≤ MAXARG - 1 ∧ ∀ arg ∈ argv, arg.length < p.sz

/-- `exec` returns, with -1 if the arguments do not fit in the stack, if and only if no argument
goes to an address without a page table; otherwise it follows the null pointer. -/
theorem exec_returns_iff (ready : Ready m p) (below : p.sz ≤ KERNBASE) (path : List UInt8) (small : file.length < 2 ^ 32)
    (accepted : Accepted p argv) :
    ((∃ p' r m', (exec p path (some file) argv).run m = .ok ((p', r), m') ∧
      ∀ sz, imageSize file = some sz → ¬ Fits sz argv → r = -1) ↔ ¬ Faults m file argv) ∧
    (Faults m file argv → (exec p path (some file) argv).run m = .error .nullPte) := by
  have short : ∀ arg ∈ argv, arg.length < KERNBASE := fun arg member => Nat.lt_of_lt_of_le (accepted.2 arg member) below
  have few : argv.length ≤ MAXARG := accepted.1.trans (Nat.sub_le ..)
  have spec : wp (exec p path (some file) argv)
      (fun r _ => ¬ Faults m file argv ∧ ∀ sz, imageSize file = some sz → ¬ Fits sz argv → r.2 = -1)
      (fun e => e = .nullPte ∧ Faults m file argv) m := by
    apply wp_exec ready path small short
    · intro faults
      exact ⟨rfl, faults⟩
    · intro m' _ safe
      exact ⟨(safe few).1, fun _ _ _ => rfl⟩
    · intro n pd m' image safe _ _ fits _ _
      refine ⟨safe, fun sz same long => ?_⟩
      rw [image] at same
      obtain rfl := some.inj same
      exact absurd fits long
  cases ran : exec p path (some file) argv m with
  | ok result =>
    obtain ⟨⟨p', r⟩, m'⟩ := result
    obtain ⟨safe, overlong⟩ := wp.ok spec ran
    exact ⟨iff_of_true ⟨p', r, m', ran, overlong⟩ safe, fun faults => absurd faults safe⟩
  | error e =>
    obtain ⟨rfl, faults⟩ := wp.error spec ran
    refine ⟨iff_of_false ?_ (not_not.mpr faults), fun _ => ran⟩
    rintro ⟨p', r, m', other, -⟩
    rw [StateT.run, ran] at other
    cases other

end Image

def largeProc : Proc where
  pgdir := ⟨2048, fun i => if i < 12 then some ⟨2049 + i, fun j => ⟨4096 + 1024 * i + j, USER⟩⟩ else none⟩
  sz := 48 * 2 ^ 20
  eip := 0
  esp := 0
  name := []

/-- The kernel takes 8 MB, and 16 MB are free. -/
def largeMem : Mem where
  freelist := List.range' 20000 4096
  content := fun _ => Bytes.zero
  kend := PGSIZE * 2048
  data := PGSIZE * 512

def emptyElf : List UInt8 := [0x7F, 0x45, 0x4C, 0x46] ++ List.replicate 48 0

def longArgument : List UInt8 := List.replicate (40 * 2 ^ 20) 97

theorem largeProc_lookup {w : Nat} (small : w < 2 ^ 20) :
    largeProc.pgdir.lookup w = if w < 12288 then some ⟨4096 + w, USER⟩ else none := by
  unfold PageDir.lookup PageDir.pte largeProc
  dsimp only
  rw [pdx_page small, ptx_page]
  by_cases inside : w < 12288
  · have place : 4096 + 1024 * (w / 1024) + w % 1024 = 4096 + w := by omega
    rw [if_pos (by omega), if_pos inside, map_some]
    dsimp only
    rw [place, filter_some, present_user, if_pos rfl]
  · rw [if_neg (by omega), if_neg inside]
    rfl

theorem mem_largeProc_tables {page : Nat} : page ∈ largeProc.pgdir.tables → 2049 ≤ page ∧ page < 2061 := by
  intro member
  obtain ⟨i, -, table, slot, rfl⟩ := mem_gathered.mp member
  by_cases inside : i < 12
  · have here : largeProc.pgdir.table i = some ⟨2049 + i, fun j => ⟨4096 + 1024 * i + j, USER⟩⟩ := if_pos inside
    obtain rfl := some.inj (here.symm.trans slot)
    dsimp only
    omega
  · have here : largeProc.pgdir.table i = none := if_neg inside
    rw [here] at slot
    cases slot

theorem mem_largeProc_user {page : Nat} : page ∈ largeProc.pgdir.user → 4096 ≤ page ∧ page < 16384 := by
  have order := upages_le
  intro member
  obtain ⟨w, below, e, mapped, rfl⟩ := mem_gathered.mp member
  rw [largeProc_lookup (by omega)] at mapped
  split at mapped
  · obtain rfl := some.inj mapped
    dsimp only
    omega
  · cases mapped

theorem mem_largeMem_freelist {page : Nat} : page ∈ (largeMem.freelist : Multiset Nat) → 20000 ≤ page ∧ page < 24096 := by
  intro member
  have inside := List.mem_range'_1.mp (mem_coe.mp member)
  omega

theorem largeProc_ready : Ready largeMem largeProc := by
  have order := upages_le
  constructor
  case nodup =>
    unfold Mem.pages
    rw [nodup_add, nodup_add, nodup_add]
    refine ⟨⟨⟨?_, ?_, ?_⟩, ?_, ?_⟩, nodup_singleton _, ?_⟩
    · exact coe_nodup.mpr List.nodup_range'
    · apply gathered_nodup
      intro i _ j _ a b first second same
      by_cases insideI : i < 12
      · by_cases insideJ : j < 12
        · have here : largeProc.pgdir.table i = some ⟨2049 + i, fun k => ⟨4096 + 1024 * i + k, USER⟩⟩ := if_pos insideI
          have there : largeProc.pgdir.table j = some ⟨2049 + j, fun k => ⟨4096 + 1024 * j + k, USER⟩⟩ := if_pos insideJ
          obtain rfl := some.inj (here.symm.trans first)
          obtain rfl := some.inj (there.symm.trans second)
          dsimp only at same
          omega
        · have there : largeProc.pgdir.table j = none := if_neg insideJ
          rw [there] at second
          cases second
      · have here : largeProc.pgdir.table i = none := if_neg insideI
        rw [here] at first
        cases first
    · rw [disjoint_left]
      intro page free table
      have := mem_largeMem_freelist free
      have := mem_largeProc_tables table
      omega
    · apply gathered_nodup
      intro i belowI j belowJ a b first second same
      rw [largeProc_lookup (by omega)] at first second
      split at first
      · split at second
        · obtain rfl := some.inj first
          obtain rfl := some.inj second
          dsimp only at same
          omega
        · cases second
      · cases first
    · rw [disjoint_left]
      intro page others user
      have := mem_largeProc_user user
      rcases mem_add.mp others with free | table
      · have := mem_largeMem_freelist free
        omega
      · have := mem_largeProc_tables table
        omega
    · rw [disjoint_left]
      intro page others own
      have own := mem_singleton.mp own
      have number : largeProc.pgdir.page = 2048 := rfl
      rcases mem_add.mp others with others | user
      · rcases mem_add.mp others with free | table
        · have := mem_largeMem_freelist free
          omega
        · have := mem_largeProc_tables table
          omega
      · have := mem_largeProc_user user
        omega
  case usable =>
    intro page member
    have number : largeProc.pgdir.page = 2048 := rfl
    have range : 2048 ≤ page ∧ page < 24096 := by
      rcases mem_add.mp member with others | own
      · rcases mem_add.mp others with others | user
        · rcases mem_add.mp others with free | table
          · have := mem_largeMem_freelist free
            omega
          · have := mem_largeProc_tables table
            omega
        · have := mem_largeProc_user user
          omega
      · have := mem_singleton.mp own
        omega
    refine ⟨⟨Nat.mul_le_mul_left _ range.1, ?_⟩, by omega⟩
    unfold PGSIZE PHYSTOP
    omega
  case linked => decide

theorem largeProc_accepted : Accepted largeProc [longArgument] := by
  refine ⟨by decide, fun arg member => ?_⟩
  rw [List.mem_singleton.mp member, longArgument, List.length_replicate]
  decide

theorem longArgument_faults : Faults largeMem emptyElf [longArgument] := by
  refine ⟨8192, 0xFD801FFC, by decide, ?_, ?_, by decide⟩
  · change pagesNeeded 2 ≤ (List.range' 20000 4096).length
    rw [List.length_range']
    decide
  · have place : argPlace 8192 longArgument.length = 0xFD801FFC := by
      rw [longArgument, List.length_replicate]
      decide
    unfold overflow
    rw [place]
    decide

theorem exec_longArgument : Ready largeMem largeProc ∧ Accepted largeProc [longArgument] ∧
    (exec largeProc [] (some emptyElf) [longArgument]).run largeMem = .error .nullPte := by
  refine ⟨largeProc_ready, largeProc_accepted, ?_⟩
  have short : ∀ arg ∈ [longArgument], arg.length < KERNBASE := fun arg member =>
    Nat.lt_of_lt_of_le (largeProc_accepted.2 arg member) (by decide)
  have spec : wp (exec largeProc [] (some emptyElf) [longArgument]) (fun _ _ => False) (fun e => e = .nullPte) largeMem := by
    apply wp_exec largeProc_ready [] (by decide) short
    · exact fun _ => rfl
    · exact fun _ _ safe => (safe (by decide)).1 longArgument_faults
    · exact fun _ _ _ _ safe => absurd longArgument_faults safe
  obtain ⟨e, ran, rfl⟩ := wp.stops spec
  exact ran

theorem exec_shortArgument : ∃ p' r m', (exec largeProc [] (some emptyElf) [[97]]).run largeMem = .ok ((p', r), m') ∧
    ∀ sz, imageSize emptyElf = some sz → ¬ Fits sz [[97]] → r = -1 := by
  have image : imageSize emptyElf = some 8192 := by decide
  apply (exec_returns_iff largeProc_ready (by decide) [] (by decide) ⟨by decide, by decide⟩).1.mpr
  rintro ⟨sz, va, size, -, place, -⟩
  obtain rfl := some.inj (image.symm.trans size)
  have none : overflow 8192 8192 [[97]] = none := by decide
  rw [none] at place
  cases place

end Xv6.Vm
