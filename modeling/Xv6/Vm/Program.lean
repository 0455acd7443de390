import Xv6.Vm.Image

/-! The address space of a program that `exec` has started: its segments, its guard page and what
is on its stack. -/

namespace Xv6.Vm
open Lib List Nat Option

def userWord (m : Mem) (pd : PageDir) (va : Nat) : Nat :=
  (userByte m pd va).toNat + 256 * (userByte m pd (va + 1)).toNat + 65536 * (userByte m pd (va + 2)).toNat +
    16777216 * (userByte m pd (va + 3)).toNat

def Proghdr.Apart (first second : Proghdr) : Prop :=
  ∀ va, ¬ ((first.vaddr ≤ va ∧ va < first.vaddr + first.memsz) ∧ (second.vaddr ≤ va ∧ va < second.vaddr + second.memsz))

/-- Each segment is in the address space: the bytes of the file, then zeros. -/
structure SegmentAt (m : Mem) (p : Proc) (file : List UInt8) (ph : Proghdr) : Prop where
  inside : ph.vaddr + ph.memsz ≤ p.sz - 2 * PGSIZE
  bytes : ∀ i < ph.filesz, file[ph.off + i]? = some (userByte m p.pgdir (ph.vaddr + i))
  zero : ∀ i, ph.filesz ≤ i → i < ph.memsz → userByte m p.pgdir (ph.vaddr + i) = 0

/-- The stack of a program whose arguments are at the addresses `ptrs`. -/
structure StackAt (m : Mem) (p : Proc) (argv : List (List UInt8)) (ptrs : List Nat) : Prop where
  count : ptrs.length = argv.length
  words : ∀ (i word : Nat), ([0xffffffff, argv.length, p.esp + 12] ++ ptrs ++ [0])[i]? = some word →
    userWord m p.pgdir (p.esp + 4 * i) = word
  strings : ∀ (i : Nat) arg ptr, argv[i]? = some arg → ptrs[i]? = some ptr → ∀ (j : Nat) byte, (arg ++ [0])[j]? = some byte →
    userByte m p.pgdir (ptr + j) = byte
  bottom : p.sz - PGSIZE ≤ p.esp
  above : ∀ ptr ∈ ptrs, p.esp + 4 * (argv.length + 4) ≤ ptr
  apart : ∀ (i j : Nat) arg ptr other, i < j → argv[j]? = some arg → ptrs[j]? = some ptr → ptrs[i]? = some other →
    ptr + (arg.length + 1) ≤ other
  top : ∀ (i : Nat) arg ptr, argv[i]? = some arg → ptrs[i]? = some ptr → ptr + (arg.length + 1) ≤ p.sz

/-- The image of a program that was started with these arguments. -/
structure Started (m : Mem) (p : Proc) (file : List UInt8) (argv : List (List UInt8)) : Prop where
  whole : p.sz % PGSIZE = 0 ∧ 2 * PGSIZE ≤ p.sz ∧ p.sz < KERNBASE
  segment : ∀ ph ∈ segmentsOf file, SegmentAt m p file ph
  guard : ∃ e, p.pgdir.lookup (p.sz / PGSIZE - 2) = some e ∧ e.user = false
  user : ∀ w < p.sz / PGSIZE, w ≠ p.sz / PGSIZE - 2 → ∃ e, p.pgdir.lookup w = some e ∧ e.user = true
  entry : p.eip = (elfOf file).entry
  stack : ∃ ptrs, StackAt m p argv ptrs

variable {file : List UInt8} {base : Nat → UInt8} {va : Nat}

section Segments

variable {segs : List Proghdr}

theorem loaded_outside (outside : ∀ ph ∈ segs, ¬ (ph.vaddr ≤ va ∧ va < ph.vaddr + ph.filesz)) :
    loaded file segs base va = base va := by
  induction segs generalizing base with
  | nil => rfl
  | cons ph rest ih =>
    rw [loaded, ih fun other member => outside other (mem_cons_of_mem _ member), if_neg (outside ph mem_cons_self)]

theorem loaded_inside {ph : Proghdr} (apart : segs.Pairwise Proghdr.Apart)
    (part : ∀ other ∈ segs, other.filesz ≤ other.memsz) (member : ph ∈ segs) (low : ph.vaddr ≤ va)
    (high : va < ph.vaddr + ph.memsz) :
    loaded file segs base va =
      if va < ph.vaddr + ph.filesz then file.getD (ph.off + (va - ph.vaddr)) 0 else base va := by
  induction segs generalizing base with
  | nil => cases member
  | cons first rest ih =>
    rw [pairwise_cons] at apart
    rw [loaded]
    rcases mem_cons.mp member with rfl | later
    · rw [loaded_outside]
      · exact if_congr (and_iff_right low) rfl rfl
      · intro other there inside
        have bound := part other (mem_cons_of_mem _ there)
        exact apart.1 other there va ⟨⟨low, high⟩, inside.1, by omega⟩
    · rw [ih apart.2 (fun other there => part other (mem_cons_of_mem _ there)) later]
      have bound := part first mem_cons_self
      have outside : ¬ (first.vaddr ≤ va ∧ va < first.vaddr + first.filesz) := by
        intro inside
        exact apart.1 ph later va ⟨⟨inside.1, by omega⟩, low, high⟩
      rw [if_neg outside]

theorem segmentsSize_loadable {left off sz sz' : Nat} (size : segmentsSize file left off sz = some sz') :
    ∀ ph ∈ segments file left off, ph.filesz ≤ ph.memsz ∧ ph.vaddr + ph.memsz ≤ sz' ∧
      (0 < ph.filesz → ph.off + ph.filesz ≤ file.length) := by
  induction left generalizing off sz with
  | zero => nofun
  | succ left ih =>
    unfold segmentsSize at size
    unfold segments
    split at size
    · cases size
    next bytes read =>
      dsimp only at size ⊢
      split at size
      next other =>
        rw [if_pos other]
        exact ih size
      next load =>
        rw [if_neg load]
        split at size
        next loadable =>
          intro ph member
          rcases mem_cons.mp member with rfl | later
          · refine ⟨loadable.1, ?_, loadable.2.2.2.2⟩
            exact (le_max_right ..).trans (segmentsSize_ge size)
          · exact ih size ph later
        next => cases size

end Segments

variable {n : Nat} {argv : List (List UInt8)}

section Stack

variable {ptrs : List Nat} {top : Nat}

def Descending : Nat → List Nat → List (List UInt8) → Prop
  | top, ptr :: ptrs, arg :: argv => ptr + (arg.length + 1) ≤ top ∧ Descending ptr ptrs argv
  | _, [], [] => True
  | _, _, _ => False

theorem pushed_above (descending : Descending top ptrs argv) (above : top ≤ va) : pushed ptrs argv base va = base va := by
  induction ptrs generalizing top argv base with
  | nil => cases argv <;> rfl
  | cons ptr ptrs ih =>
    cases argv with
    | nil => rfl
    | cons arg argv =>
      have bound := descending.1
      rw [pushed, ih descending.2 (by omega), copied, if_neg (by rw [length_append, length_singleton]; omega)]

theorem pushed_below (below : ∀ ptr ∈ ptrs, va < ptr) : pushed ptrs argv base va = base va := by
  induction ptrs generalizing argv base with
  | nil => cases argv <;> rfl
  | cons ptr ptrs ih =>
    cases argv with
    | nil => rfl
    | cons arg argv =>
      have bound := below ptr mem_cons_self
      rw [pushed, ih fun other member => below other (mem_cons_of_mem _ member), copied, if_neg (by omega)]

variable {arg : List UInt8} {i j ptr : Nat}

theorem pushed_string (descending : Descending top ptrs argv) {byte : UInt8}
    (argument : argv[i]? = some arg) (pointer : ptrs[i]? = some ptr) (string : (arg ++ [0])[j]? = some byte) :
    pushed ptrs argv base (ptr + j) = byte := by
  induction ptrs generalizing top argv base i with
  | nil => cases pointer
  | cons first ptrs ih =>
    cases argv with
    | nil => cases argument
    | cons head argv =>
      rw [pushed]
      cases i with
      | zero =>
        obtain rfl := some.inj pointer
        obtain rfl := Option.some.inj argument
        obtain ⟨inside, -⟩ := List.getElem?_eq_some_iff.mp string
        rw [pushed_above descending.2 (Nat.le_add_right ..), copied, if_pos (by omega), Nat.add_sub_cancel_left,
          getD_eq_getElem?_getD, string]
        rfl
      | succ i => exact ih descending.2 argument pointer

theorem Descending.top_le (descending : Descending top ptrs argv)
    (argument : argv[i]? = some arg) (pointer : ptrs[i]? = some ptr) : ptr + (arg.length + 1) ≤ top := by
  induction ptrs generalizing top argv i with
  | nil => cases pointer
  | cons first ptrs ih =>
    cases argv with
    | nil => cases argument
    | cons head argv =>
      cases i with
      | zero =>
        obtain rfl := some.inj pointer
        obtain rfl := some.inj argument
        exact descending.1
      | succ i =>
        have lower := ih descending.2 argument pointer
        have bound := descending.1
        omega

theorem Descending.apart (descending : Descending top ptrs argv) {other : Nat} (order : i < j)
    (argument : argv[j]? = some arg) (pointer : ptrs[j]? = some ptr) (earlier : ptrs[i]? = some other) :
    ptr + (arg.length + 1) ≤ other := by
  induction ptrs generalizing top argv i j with
  | nil => cases pointer
  | cons first ptrs ih =>
    cases argv with
    | nil => cases argument
    | cons head argv =>
      obtain ⟨j, rfl⟩ : ∃ k, j = k + 1 := ⟨j - 1, by omega⟩
      cases i with
      | zero =>
        obtain rfl := some.inj earlier
        exact descending.2.top_le argument pointer
      | succ i => exact ih descending.2 (by omega) argument pointer earlier

theorem places_descending {sp : Nat} (below : PGSIZE * (n + 2) < KERNBASE) (low : PGSIZE * (n + 1) ≤ sp)
    (high : sp ≤ PGSIZE * (n + 2)) (short : ∀ arg ∈ argv, arg.length < KERNBASE)
    (none : overflow (PGSIZE * (n + 2)) sp argv = none) :
    Descending sp (places sp argv) argv ∧ lastPlace sp argv ≤ sp ∧ ∀ ptr ∈ places sp argv, lastPlace sp argv ≤ ptr := by
  induction argv generalizing sp with
  | nil => exact ⟨trivial, le_refl sp, nofun⟩
  | cons arg argv ih =>
    have where_ := argPlace_cases below low high (short arg mem_cons_self)
    unfold overflow at none
    dsimp only at none
    simp only [stackPage_iff] at none
    rw [places, lastPlace]
    generalize argPlace sp arg.length = place at where_ none ⊢
    split at none
    next inside =>
      have fits : place + (arg.length + 1) ≤ sp := by omega
      obtain ⟨descending, last, all⟩ :=
        ih inside.1 (le_of_lt inside.2) (fun other member => short other (mem_cons_of_mem _ member)) none
      refine ⟨⟨fits, descending⟩, by omega, fun ptr member => ?_⟩
      rcases mem_cons.mp member with rfl | later
      · exact last
      · exact all ptr later
    next => cases none

variable {word k : Nat} {words : List Nat}

theorem getElem?_flatMap_wordBytes (here : words[i]? = some word) (small : k < 4) :
    (words.flatMap wordBytes)[4 * i + k]? = (wordBytes word)[k]? := by
  induction words generalizing i with
  | nil => cases here
  | cons first words ih =>
    rw [flatMap_cons]
    cases i with
    | zero =>
      obtain rfl := some.inj here
      rw [mul_zero, zero_add, getElem?_append_left (by exact small)]
    | succ i =>
      rw [getElem?_append_right (by change 4 ≤ _; omega)]
      have place : 4 * (i + 1) + k - (wordBytes first).length = 4 * i + k := by
        change 4 * (i + 1) + k - 4 = 4 * i + k
        omega
      rw [place]
      exact ih here

theorem copied_word {place : Nat} (here : words[i]? = some word) (small : k < 4) :
    copied place (words.flatMap wordBytes) base (place + 4 * i + k) = (wordBytes word).getD k 0 := by
  have byte := getElem?_flatMap_wordBytes here small
  have inside : 4 * i + k < (words.flatMap wordBytes).length := by
    by_contra outside
    rw [getElem?_eq_none (by omega)] at byte
    exact absurd (List.getElem?_eq_none_iff.mp byte.symm) (by change ¬ 4 ≤ k; omega)
  rw [copied, if_pos (by omega), Nat.add_assoc, Nat.add_sub_cancel_left, getD_eq_getElem?_getD, byte,
    getD_eq_getElem?_getD]

theorem word_of_bytes (small : word < 2 ^ 32) :
    (UInt8.ofNat word).toNat + 256 * (UInt8.ofNat (word / 256)).toNat + 65536 * (UInt8.ofNat (word / 65536)).toNat +
      16777216 * (UInt8.ofNat (word / 16777216)).toNat = word := by
  simp only [UInt8.toNat_ofNat']
  omega

end Stack

section Exec

variable {m m' : Mem} {p p' : Proc} {pd : PageDir}

theorem ustack_eq (sp : Nat) (ptrs : List Nat) (low : 4 * (ptrs.length + 4) ≤ sp) (high : sp < 2 ^ 32) :
    ustack sp ptrs = [0xffffffff, ptrs.length, sp - 4 * (ptrs.length + 4) + 12] ++ ptrs ++ [0] := by
  have third : (sp + 2 ^ 32 - (ptrs.length + 1) * 4) % 2 ^ 32 = sp - 4 * (ptrs.length + 4) + 12 := by omega
  rw [ustack, third]

theorem stackAt_of_bytes {eip : Nat} {name : List UInt8} (below : PGSIZE * (n + 2) < KERNBASE) (fits : Fits (PGSIZE * (n + 2)) argv)
    (short : ∀ arg ∈ argv, arg.length < KERNBASE) (bytes : ∀ va < KERNBASE, userByte m pd va =
      stacked (PGSIZE * (n + 2)) argv (loaded file (segmentsOf file) fun _ => 0) va) :
    StackAt m ⟨pd, PGSIZE * (n + 2), eip, lastPlace (PGSIZE * (n + 2)) argv - 4 * (argv.length + 4), name⟩ argv
      (places (PGSIZE * (n + 2)) argv) := by
  have page : PGSIZE * (n + 2) - PGSIZE = PGSIZE * (n + 1) := by
    unfold PGSIZE
    omega
  obtain ⟨descending, last, all⟩ := places_descending below (mul_le_mul_left _ (by omega)) (le_refl _) short fits.1
  have room := fits.2
  rw [page] at room
  have count := length_places (PGSIZE * (n + 2)) argv
  have size := length_ustack (lastPlace (PGSIZE * (n + 2)) argv) (places (PGSIZE * (n + 2)) argv)
  have words := ustack_eq (lastPlace (PGSIZE * (n + 2)) argv) (places (PGSIZE * (n + 2)) argv) (by omega)
    (by unfold KERNBASE at below; omega)
  rw [count] at words size
  have argument : ∀ {i ptr : Nat}, (places (PGSIZE * (n + 2)) argv)[i]? = some ptr → ∃ arg, argv[i]? = some arg := by
    intro i ptr here
    obtain ⟨inside, -⟩ := List.getElem?_eq_some_iff.mp here
    exact ⟨_, List.getElem?_eq_getElem (count ▸ inside)⟩
  unfold stacked at bytes
  rw [words] at bytes size
  generalize places (PGSIZE * (n + 2)) argv = ptrs at *
  generalize lastPlace (PGSIZE * (n + 2)) argv = sp at *
  generalize PGSIZE * (n + 2) = sz at *
  have small : ∀ ptr ∈ ptrs, ptr < 2 ^ 32 := by
    intro ptr member
    obtain ⟨i, here⟩ := mem_iff_getElem?.mp member
    obtain ⟨arg, there⟩ := argument here
    have bound := descending.top_le there here
    unfold KERNBASE at below
    omega
  have base : KERNBASE = 2 ^ 31 := rfl
  constructor
  case count => exact count
  case words =>
    intro i word here
    obtain ⟨inside, -⟩ := List.getElem?_eq_some_iff.mp here
    have length : ([0xffffffff, argv.length, sp - 4 * (argv.length + 4) + 12] ++ ptrs ++ [0]).length = argv.length + 4 := by
      simp only [length_append, length_cons, length_nil, count]
      omega
    rw [length] at inside
    have bound : word < 2 ^ 32 := by
      have member := mem_of_getElem? here
      simp only [mem_append, mem_cons, not_mem_nil, or_false] at member
      rcases member with ((rfl | rfl | rfl) | ptr) | rfl
      · decide
      · omega
      · omega
      · exact small word ptr
      · decide
    have byte : ∀ k < 4, userByte m pd (sp - 4 * (argv.length + 4) + 4 * i + k) = (wordBytes word).getD k 0 := by
      intro k low
      rw [bytes _ (by omega)]
      exact copied_word here low
    unfold userWord
    dsimp only
    rw [show userByte m pd (sp - 4 * (argv.length + 4) + 4 * i) = _ from byte 0 (by decide), byte 1 (by decide),
      byte 2 (by decide), byte 3 (by decide)]
    exact word_of_bytes bound
  case strings =>
    intro i arg ptr there here j byte string
    obtain ⟨inside, -⟩ := List.getElem?_eq_some_iff.mp string
    rw [length_append, length_singleton] at inside
    have high := descending.top_le there here
    have low := all ptr (mem_of_getElem? here)
    dsimp only
    rw [bytes _ (by omega), copied, if_neg (by omega)]
    exact pushed_string descending there here string
  case bottom =>
    dsimp only
    omega
  case above =>
    intro ptr member
    have low := all ptr member
    dsimp only
    omega
  case apart =>
    intro i j arg ptr other order there here earlier
    exact descending.apart order there here earlier
  case top =>
    intro i arg ptr there here
    exact descending.top_le there here

theorem stacked_program (below : PGSIZE * (n + 2) < KERNBASE) (fits : Fits (PGSIZE * (n + 2)) argv)
    (short : ∀ arg ∈ argv, arg.length < KERNBASE) (low : va < PGSIZE * (n + 1)) (base : Nat → UInt8) :
    stacked (PGSIZE * (n + 2)) argv base va = base va := by
  have page : PGSIZE * (n + 2) - PGSIZE = PGSIZE * (n + 1) := by
    unfold PGSIZE
    omega
  obtain ⟨-, -, all⟩ := places_descending below (mul_le_mul_left _ (by omega)) (le_refl _) short fits.1
  have room := fits.2
  rw [page] at room
  rw [stacked, copied, if_neg (by omega)]
  apply pushed_below
  intro ptr member
  have := all ptr member
  omega

/-- A program that `exec` has started is in memory as its file and its arguments say. -/
theorem exec_started (ready : Ready m p) (path : List UInt8) (small : file.length < 2 ^ 32)
    (short : ∀ arg ∈ argv, arg.length < KERNBASE) (apart : (segmentsOf file).Pairwise Proghdr.Apart)
    (ran : (exec p path (some file) argv).run m = .ok ((p', 0), m')) : Started m' p' file argv := by
  have spec : wp (exec p path (some file) argv) (fun r m' => r.2 = 0 → Started m' r.1 file argv) (fun _ => True) m := by
    apply wp_exec ready path small short
    · exact fun _ => trivial
    · exact nofun
    · intro n pd m' image _ ⟨sz, loads, same⟩ below fits guarded bytes _
      have pages : PGSIZE * (n + 2) / PGSIZE = n + 2 := Nat.mul_div_cancel_left _ (by decide)
      have loadable := segmentsSize_loadable loads
      have program : ∀ va < PGSIZE * n, userByte m' pd va = loaded file (segmentsOf file) (fun _ => 0) va := by
        intro va inside
        have lower : PGSIZE * n ≤ PGSIZE * (n + 1) := mul_le_mul_left _ (by omega)
        have upper : PGSIZE * (n + 1) ≤ PGSIZE * (n + 2) := mul_le_mul_left _ (by omega)
        rw [bytes va (by omega), stacked_program below fits short (by omega)]
      have room : sz ≤ PGSIZE * n := by
        rw [same]
        unfold pagesFor PGSIZE
        omega
      constructor
      case whole => exact ⟨mul_mod_right .., by unfold PGSIZE; dsimp only; omega, below⟩
      case segment =>
        intro ph member
        obtain ⟨part, within, read⟩ := loadable ph member
        have own : ∀ i < ph.memsz, loaded file (segmentsOf file) (fun _ => 0) (ph.vaddr + i) =
            if ph.vaddr + i < ph.vaddr + ph.filesz then file.getD (ph.off + (ph.vaddr + i - ph.vaddr)) 0 else 0 := by
          intro i inside
          exact loaded_inside apart (fun other there => (loadable other there).1) member (Nat.le_add_right ..) (by omega)
        constructor
        case inside =>
          unfold PGSIZE at *
          dsimp only
          omega
        case bytes =>
          intro i inside
          have length := read (by omega)
          rw [program _ (by omega), own i (by omega), if_pos (by omega), Nat.add_sub_cancel_left, getD_eq_getElem?_getD,
            List.getElem?_eq_getElem (by omega)]
          rfl
        case zero =>
          intro i past inside
          rw [program _ (by omega), own i inside, if_neg (by omega)]
      case guard =>
        obtain ⟨page, mapped⟩ := guarded.guard
        refine ⟨_, ?_, user_guard page⟩
        dsimp only
        rw [pages]
        exact mapped
      case user =>
        intro w inside other
        dsimp only at inside other
        rw [pages] at inside other
        obtain ⟨page, mapped⟩ := guarded.user w inside other
        exact ⟨_, mapped, user_user page⟩
      case entry => rfl
      case stack => exact ⟨_, stackAt_of_bytes below fits short bytes⟩
  exact wp.ok spec ran rfl

end Exec

def byteElf : List UInt8 :=
  [0x7F, 0x45, 0x4C, 0x46] ++ replicate 24 0 ++ [52, 0, 0, 0] ++ replicate 12 0 ++ [1, 0] ++ replicate 6 0 ++
    [1, 0, 0, 0] ++ [84, 0, 0, 0] ++ replicate 8 0 ++ [1, 0, 0, 0] ++ [2, 0, 0, 0] ++ replicate 8 0 ++ [0x90]

theorem byteElf_runs : Runs largeMem byteElf [[97]] := by
  refine ⟨12288, by decide, ?_, by decide⟩
  change pagesNeeded 3 ≤ (range' 20000 4096).length
  rw [length_range']
  decide

theorem exec_byteElf : ∃ p' m', (exec largeProc [] (some byteElf) [[97]]).run largeMem = .ok ((p', 0), m') ∧
    Started m' p' byteElf [[97]] := by
  have spec : wp (exec largeProc [] (some byteElf) [[97]]) (fun r _ => r.2 = 0) (fun _ => False) largeMem := by
    apply wp_exec largeProc_ready [] (by decide) (by decide)
    · rintro ⟨sz, va, image, -, place, -⟩
      obtain ⟨sz', image', -, fits⟩ := byteElf_runs
      obtain rfl := some.inj (image.symm.trans image')
      rw [fits.1] at place
      cases place
    · exact fun _ _ none => ((none (by decide)).2 byteElf_runs).elim
    · exact fun _ _ _ _ _ _ _ _ _ _ => rfl
  obtain ⟨⟨p', r⟩, m', ran, result⟩ := wp.returns spec
  dsimp only at result
  subst result
  refine ⟨p', m', ran, exec_started largeProc_ready [] (by decide) (by decide) ?_ ran⟩
  have one : (segmentsOf byteElf).length = 1 := by decide
  obtain ⟨ph, only⟩ := length_eq_one_iff.mp one
  rw [only]
  exact pairwise_singleton ..

end Xv6.Vm
