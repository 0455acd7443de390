import Xv6.Elf
import Xv6.Vm.Kernel

/-! `exec.c`, and what its first part makes of the contents of a file: the size of the image, the
bytes in it, and when there are too few pages for it. -/

namespace Xv6.Vm
open Lib Nat List Option Multiset

def readAll (file : List UInt8) (off n : Nat) : Option (List UInt8) := (readi file off n).filter (·.length = n)

/-- The loop over the program headers, `left` of them to come; the size is `none` for `goto bad`. -/
def loadSegments (file : List UInt8) : Nat → Nat → PageDir → Nat → VmM (PageDir × Option Nat)
  | 0, _, pgdir, sz => return (pgdir, some sz)
  | left + 1, off, pgdir, sz =>
    match readAll file off PROGHDR with
    | none => return (pgdir, none)
    | some bytes =>
      let ph := Proghdr.ofBytes bytes
      if ph.type ≠ ELF_PROG_LOAD then
        loadSegments file left ((off + PROGHDR) % 2 ^ 32) pgdir sz
      else if ph.memsz < ph.filesz then
        return (pgdir, none)
      else if (ph.vaddr + ph.memsz) % 2 ^ 32 < ph.vaddr then
        return (pgdir, none)
      else do
        let (pgdir, sz) ← allocuvm pgdir sz ((ph.vaddr + ph.memsz) % 2 ^ 32)
        if sz = 0 then
          return (pgdir, none)
        else if ph.vaddr % PGSIZE ≠ 0 then
          return (pgdir, none)
        else if ← loaduvm pgdir ph.vaddr file ph.off ph.filesz then
          loadSegments file left ((off + PROGHDR) % 2 ^ 32) pgdir sz
        else
          return (pgdir, none)

def allocStack (pgdir : PageDir) (sz : Nat) : VmM (PageDir × Option Nat) := do
  let sz := pgroundup sz
  let (pgdir, sz) ← allocuvm pgdir sz (sz + 2 * PGSIZE)
  if sz = 0 then
    return (pgdir, none)
  else do
    let pgdir ← clearpteu pgdir (sz - 2 * PGSIZE)
    return (pgdir, some sz)

/-- Where `exec` puts a string of this length below `sp`. -/
def argPlace (sp length : Nat) : Nat := (sp + 2 ^ 32 - (length + 1)) % 2 ^ 32 / 4 * 4

def pushArgs (pgdir : PageDir) : List (List UInt8) → Nat → List Nat → VmM (Option (Nat × List Nat))
  | [], sp, ptrs => return some (sp, ptrs)
  | arg :: argv, sp, ptrs =>
    if ptrs.length ≥ MAXARG then
      return none
    else do
      let sp := argPlace sp arg.length
      if ← copyout pgdir sp (arg ++ [0]) then
        pushArgs pgdir argv sp (ptrs ++ [sp])
      else
        return none

def wordBytes (word : Nat) : List UInt8 :=
  [UInt8.ofNat word, UInt8.ofNat (word / 256), UInt8.ofNat (word / 65536), UInt8.ofNat (word / 16777216)]

def ustack (sp : Nat) (ptrs : List Nat) : List Nat :=
  [0xffffffff, ptrs.length, (sp + 2 ^ 32 - (ptrs.length + 1) * 4) % 2 ^ 32] ++ ptrs ++ [0]

/-- The arguments and `ustack`; the stack pointer, or `none` for `goto bad`. -/
def pushStack (pgdir : PageDir) (argv : List (List UInt8)) (sz : Nat) : VmM (Option Nat) := do
  match ← pushArgs pgdir argv sz [] with
  | none => return none
  | some (sp, ptrs) => do
    let words := ustack sp ptrs
    let sp := (sp + 2 ^ 32 - (3 + ptrs.length + 1) * 4) % 2 ^ 32
    if ← copyout pgdir sp (words.flatMap wordBytes) then
      return some sp
    else
      return none

def lastFrom : List UInt8 → List UInt8 → List UInt8
  | last, [] => last
  | last, c :: s => lastFrom (if c = 47 then s else last) s

def safestrcpy (t : List UInt8) (n : Nat) : List UInt8 := t.take (n - 1)

def buildImage (file : List UInt8) (elf : Elfhdr) (argv : List (List UInt8)) (pgdir : PageDir) :
    VmM (PageDir × Option (Nat × Nat)) := do
  match ← loadSegments file elf.phnum elf.phoff pgdir 0 with
  | (pgdir, none) => return (pgdir, none)
  | (pgdir, some sz) => do
    match ← allocStack pgdir sz with
    | (pgdir, none) => return (pgdir, none)
    | (pgdir, some sz) => do
      match ← pushStack pgdir argv sz with
      | none => return (pgdir, none)
      | some sp => return (pgdir, some (sz, sp))

def exec (p : Proc) (path : List UInt8) (file : Option (List UInt8)) (argv : List (List UInt8)) : VmM (Proc × Int) :=
  match file with
  | none => return (p, -1)
  | some file =>
    match readAll file 0 ELFHDR with
    | none => return (p, -1)
    | some bytes =>
      let elf := Elfhdr.ofBytes bytes
      if elf.magic ≠ ELF_MAGIC then
        return (p, -1)
      else do
        match ← setupkvm with
        | none => return (p, -1)
        | some pgdir => do
          match ← buildImage file elf argv pgdir with
          | (pgdir, none) => do
            freevm pgdir
            return (p, -1)
          | (pgdir, some (sz, sp)) => do
            let name := safestrcpy (lastFrom path path) 16
            freevm p.pgdir
            return (⟨pgdir, sz, elf.entry, sp, name⟩, 0)

def userByte (m : Mem) (pd : PageDir) (va : Nat) : UInt8 :=
  (pd.lookup (va / PGSIZE)).elim 0 fun e => (m.content e.ppn).get (va % PGSIZE)

/-- Nothing has changed but the contents of user pages. -/
structure Written (m m' : Mem) (pd : PageDir) : Prop where
  frame : m' = { m with content := m'.content }
  content : ∀ page, page ∉ pd.user → m'.content page = m.content page

variable {stop : Stop → Prop}

section Writing

variable {m m' m'' : Mem} {pd pd' : PageDir} {va w : Nat} {e : Pte}

theorem Written.refl (m : Mem) (pd : PageDir) : Written m m pd := ⟨rfl, fun _ _ => rfl⟩

theorem Written.trans (first : Written m m' pd) (second : Written m' m'' pd) : Written m m'' pd where
  frame := by
    have last := second.frame
    rw [first.frame] at last
    exact last
  content := fun page away => (second.content page away).trans (first.content page away)

theorem Written.freelist (written : Written m m' pd) : m'.freelist = m.freelist := by
  rw [written.frame]

theorem Written.pages (written : Written m m' pd) : m'.pages pd = m.pages pd := by
  rw [Mem.pages, Mem.pages, written.freelist]

theorem Written.sound (written : Written m m' pd) (sound : Sound m pd) : Sound m' pd := by
  apply sound.congr _ written.pages
  rw [written.frame]

theorem Building.written {start : Mem} (building : Building start m pd) (written : Written m m' pd) : Building start m' pd where
  frame := by
    have last := written.frame
    rw [building.frame] at last
    rw [last]
  pages := by rw [written.pages, building.pages]
  content := by
    intro page away
    have other : page ∉ pd.user := by
      intro here
      apply away
      rw [← mem_coe, ← building.pages]
      exact mem_add.mpr (.inl (mem_add.mpr (.inr here)))
    rw [written.content page other, building.content page away]

theorem PageDir.pte_of_lookup (mapped : pd.lookup w = some e) : pd.pte (PGSIZE * w) = some e ∧ e.present = true :=
  filter_eq_some_iff.mp mapped

theorem Sound.user_injective {v : Nat} {f : Pte} (sound : Sound m pd) (insideV : v < UPAGES) (insideW : w < UPAGES)
    (mappedV : pd.lookup v = some f) (mappedW : pd.lookup w = some e) (same : f.ppn = e.ppn) : v = w :=
  gathered_injective (nodup_add.mp sound.nodup).2.1 insideV insideW mappedV mappedW same

theorem wp_setPage_user {post : Unit → Mem → Prop} {content : Page} (sound : Sound m pd) (inside : w < UPAGES)
    (mapped : pd.lookup w = some e)
    (done : ∀ m', Written m m' pd → (∀ va < KERNBASE, userByte m' pd va =
      if va / PGSIZE = w then content.get (va % PGSIZE) else userByte m pd va) → post () m') :
    wp (setPage e.ppn content) post stop m := by
  refine wp_modify.mpr (done _ ⟨rfl, fun page away => ?_⟩ fun va below => ?_)
  · apply Function.update_of_ne
    rintro rfl
    exact away (mem_gathered.mpr ⟨w, inside, e, mapped, rfl⟩)
  · unfold userByte
    by_cases here : va / PGSIZE = w
    · rw [if_pos here, here, mapped, elim_some]
      dsimp only
      rw [Function.update_self]
    · rw [if_neg here]
      cases there : pd.lookup (va / PGSIZE) with
      | none => rfl
      | some f =>
        have other : f.ppn ≠ e.ppn := fun same => here (sound.user_injective (div_lt_upages below) inside there mapped same)
        rw [elim_some, elim_some]
        dsimp only
        rw [Function.update_of_ne other]

theorem Grown.userByte {lo hi : Nat} (grown : Grown m m' pd pd' lo hi) (sound : Sound m pd)
    (absent : ∀ w, lo ≤ w → w < UPAGES → pd.lookup w = none) (below : va < KERNBASE) :
    userByte m' pd' va = userByte m pd va := by
  have inside := div_lt_upages below
  have order := upages_le
  unfold Vm.userByte
  by_cases new_ : lo ≤ va / PGSIZE ∧ va / PGSIZE < hi
  · obtain ⟨page, -, mapped, zero⟩ := grown.fresh _ new_.1 new_.2
    rw [mapped, absent _ new_.1 inside, elim_some, elim_none, zero, Bytes.get_zero]
  · rw [grown.lookup _ (by omega) new_]
    cases mapped : pd.lookup (va / PGSIZE) with
    | none => rfl
    | some e => rw [elim_some, elim_some, grown.content _ (sound.notFree inside mapped)]

end Writing

section Segment

variable {m : Mem} {pd : PageDir} {file : List UInt8} {count : Nat}

theorem readi_take {off n : Nat} {bytes : List UInt8} (read : readi file off n = some bytes) :
    off ≤ file.length ∧ bytes = (file.drop off).take n := by
  unfold readi at read
  split at read
  · cases read
  · exact ⟨by omega, (some.inj read).symm⟩

theorem readi_none {off n : Nat} (small : file.length < 2 ^ 32) (read : readi file off n = none) : file.length < off + n := by
  unfold readi at read
  split at read
  · omega
  · cases read

theorem getD_take_drop {off n i : Nat} (inside : i < n) : ((file.drop off).take n).getD i 0 = file.getD (off + i) 0 := by
  rw [getD_eq_getElem?_getD, getD_eq_getElem?_getD, getElem?_take_of_lt inside, getElem?_drop]

variable {post : Bool → Mem → Prop}

theorem wp_loaduvmFrom (fuel a off sz i : Nat) (space : Space pd count) (top : count ≤ UPAGES)
    (sound : Sound m pd) (small : file.length < 2 ^ 32) (aligned : i % PGSIZE = 0) (fits : PGSIZE * a + sz ≤ PGSIZE * count)
    (start : i < sz → off + i < 2 ^ 32) (enough : sz ≤ i + PGSIZE * fuel)
    (failed : ∀ m', Written m m' pd → i < sz → file.length < off + sz → post false m')
    (done : ∀ m', Written m m' pd → (i < sz → off + sz ≤ file.length) → (∀ va < KERNBASE, userByte m' pd va =
      if PGSIZE * a + i ≤ va ∧ va < PGSIZE * a + sz then file.getD (off + (va - PGSIZE * a)) 0 else userByte m pd va) →
      post true m') :
    wp (loaduvmFrom (fuel + 1) pd (PGSIZE * a) file off sz i) post stop m := by
  have order := upages_eq
  induction fuel generalizing m i with
  | zero =>
    unfold loaduvmFrom
    rw [if_neg (by unfold PGSIZE at *; omega)]
    exact wp_pure.mpr (done m (.refl m pd) (fun more => by unfold PGSIZE at *; omega) fun va _ => by rw [if_neg (by unfold PGSIZE at *; omega)])
  | succ fuel ih =>
    unfold loaduvmFrom
    by_cases more : i < sz
    · have page : (PGSIZE * a + i) % 2 ^ 32 = PGSIZE * (a + i / PGSIZE) := by unfold PGSIZE at *; omega
      have inside : a + i / PGSIZE < count := by unfold PGSIZE at *; omega
      obtain ⟨ppn, mapped⟩ := space.user _ inside
      rw [if_pos more, page, (PageDir.pte_of_lookup mapped).1, mod_eq_of_lt (start more)]
      dsimp only
      cases read : readi file (off + i) (if sz - i < PGSIZE then sz - i else PGSIZE) with
      | none =>
        have short := readi_none small read
        refine wp_pure.mpr (failed m (.refl m pd) more ?_)
        split at short <;> (unfold PGSIZE at *; omega)
      | some bytes =>
        obtain ⟨within, rfl⟩ := readi_take read
        generalize chunk : (if sz - i < PGSIZE then sz - i else PGSIZE) = n
        have size : n = min (sz - i) PGSIZE := by
          rw [← chunk]
          split <;> (unfold PGSIZE at *; omega)
        dsimp only
        rw [wp_bind, wp_get, wp_bind]
        apply wp_setPage_user sound (by unfold PGSIZE at *; omega) mapped
        intro m' written bytes
        have length : ((file.drop (off + i)).take n).length = min n (file.length - (off + i)) := by
          rw [length_take, length_drop]
        rw [length]
        by_cases short : min n (file.length - (off + i)) = n
        · have next : (i + PGSIZE) % 2 ^ 32 = i + PGSIZE := by unfold PGSIZE at *; omega
          -- the bytes of this page, as the rest of the loop finds them
          have here : ∀ va < KERNBASE, userByte m' pd va =
              if PGSIZE * a + i ≤ va ∧ va < PGSIZE * a + i + n then file.getD (off + (va - PGSIZE * a)) 0
              else userByte m pd va := by
            intro va below
            have rest : va % PGSIZE < PGSIZE := mod_lt _ (by decide)
            rw [bytes va below]
            by_cases at_ : va / PGSIZE = a + i / PGSIZE
            · rw [if_pos at_, Bytes.get_blit _ _ _ rest, length, short]
              by_cases low : va % PGSIZE < n
              · have place : off + i + va % PGSIZE = off + (va - PGSIZE * a) := by unfold PGSIZE at *; omega
                rw [if_pos (by unfold PGSIZE at *; omega), if_pos (by unfold PGSIZE at *; omega), Nat.sub_zero,
                  getD_take_drop low, place]
              · rw [if_neg (by unfold PGSIZE at *; omega), if_neg (by unfold PGSIZE at *; omega), userByte, at_, mapped]
                rfl
            · rw [if_neg at_, if_neg (by unfold PGSIZE at *; omega)]
          rw [if_neg (not_not.mpr short), next]
          apply ih (i + PGSIZE) (written.sound sound) (by unfold PGSIZE at *; omega) (by unfold PGSIZE at *; omega)
            (by unfold PGSIZE at *; omega)
          · intro m'' written' _ short'
            exact failed m'' (written.trans written') more short'
          · intro m'' written' whole bytes'
            refine done m'' (written.trans written') (fun _ => ?_) fun va below => ?_
            · by_cases last : i + PGSIZE < sz
              · exact whole last
              · omega
            · rw [bytes' va below, here va below]
              by_cases later : PGSIZE * a + (i + PGSIZE) ≤ va ∧ va < PGSIZE * a + sz
              · rw [if_pos later, if_pos (by unfold PGSIZE at *; omega)]
              · rw [if_neg later]
                exact if_congr (by unfold PGSIZE at *; omega) rfl rfl
        · rw [if_pos short]
          refine wp_pure.mpr (failed m' written more ?_)
          unfold PGSIZE at *
          omega
    · rw [if_neg more]
      exact wp_pure.mpr (done m (.refl m pd) (fun again => absurd again more) fun va _ => by rw [if_neg (by unfold PGSIZE at *; omega)])

theorem wp_loaduvm {addr off sz : Nat} (space : Space pd count) (top : count ≤ UPAGES)
    (sound : Sound m pd) (small : file.length < 2 ^ 32) (aligned : addr % PGSIZE = 0) (fits : addr + sz ≤ PGSIZE * count)
    (start : off < 2 ^ 32)
    (failed : ∀ m', Written m m' pd → 0 < sz → file.length < off + sz → post false m')
    (done : ∀ m', Written m m' pd → (0 < sz → off + sz ≤ file.length) → (∀ va < KERNBASE, userByte m' pd va =
      if addr ≤ va ∧ va < addr + sz then file.getD (off + (va - addr)) 0 else userByte m pd va) → post true m') :
    wp (loaduvm pd addr file off sz) post stop m := by
  have order := upages_eq
  obtain ⟨a, rfl⟩ := dvd_of_mod_eq_zero aligned
  unfold loaduvm
  rw [if_neg (not_not.mpr aligned)]
  exact wp_loaduvmFrom (2 ^ 20) a off sz 0 space top sound small rfl fits (fun _ => start)
    (by unfold PGSIZE at *; omega) failed done

end Segment

/-- The loadable program headers, in the order of the file. -/
def segments (file : List UInt8) : Nat → Nat → List Proghdr
  | 0, _ => []
  | left + 1, off =>
    match readAll file off PROGHDR with
    | none => []
    | some bytes =>
      let ph := Proghdr.ofBytes bytes
      if ph.type ≠ ELF_PROG_LOAD then segments file left ((off + PROGHDR) % 2 ^ 32)
      else ph :: segments file left ((off + PROGHDR) % 2 ^ 32)

/-- The checks that a header passes, the image being of size `sz` before. -/
def Loadable (file : List UInt8) (sz : Nat) (ph : Proghdr) : Prop :=
  ph.filesz ≤ ph.memsz ∧ ph.vaddr + ph.memsz < KERNBASE ∧ 0 < max sz (ph.vaddr + ph.memsz) ∧ ph.vaddr % PGSIZE = 0 ∧
    (0 < ph.filesz → ph.off + ph.filesz ≤ file.length)

instance (file : List UInt8) (sz : Nat) (ph : Proghdr) : Decidable (Loadable file sz ph) :=
  inferInstanceAs (Decidable (_ ∧ _ ∧ _ ∧ _ ∧ _))

/-- The size after `left` more headers, if all of them can be loaded. -/
def segmentsSize (file : List UInt8) : Nat → Nat → Nat → Option Nat
  | 0, _, sz => some sz
  | left + 1, off, sz =>
    match readAll file off PROGHDR with
    | none => none
    | some bytes =>
      let ph := Proghdr.ofBytes bytes
      if ph.type ≠ ELF_PROG_LOAD then segmentsSize file left ((off + PROGHDR) % 2 ^ 32) sz
      else if Loadable file sz ph then segmentsSize file left ((off + PROGHDR) % 2 ^ 32) (max sz (ph.vaddr + ph.memsz))
      else none

def loaded (file : List UInt8) : List Proghdr → (Nat → UInt8) → Nat → UInt8
  | [], base => base
  | ph :: rest, base => loaded file rest fun va =>
    if ph.vaddr ≤ va ∧ va < ph.vaddr + ph.filesz then file.getD (ph.off + (va - ph.vaddr)) 0 else base va

section Segments

variable {m m' : Mem} {pd : PageDir} {file : List UInt8}

theorem segmentsSize_ge {left off sz sz' : Nat} (size : segmentsSize file left off sz = some sz') : sz ≤ sz' := by
  induction left generalizing off sz with
  | zero => exact le_of_eq (some.inj size)
  | succ left ih =>
    unfold segmentsSize at size
    split at size
    · cases size
    · dsimp only at size
      split at size
      · exact ih size
      · split at size
        · exact (le_max_left ..).trans (ih size)
        · cases size

theorem segmentsSize_lt {left off sz sz' : Nat} (size : segmentsSize file left off sz = some sz') (small : sz < KERNBASE) :
    sz' < KERNBASE := by
  induction left generalizing off sz with
  | zero => exact some.inj size ▸ small
  | succ left ih =>
    unfold segmentsSize at size
    split at size
    · cases size
    · dsimp only at size
      split at size
      · exact ih size small
      · split at size
        next loadable => exact ih size (Nat.max_lt.mpr ⟨small, loadable.2.1⟩)
        · cases size

theorem loaded_congr {segs : List Proghdr} {base other : Nat → UInt8} {va : Nat} (same : base va = other va) :
    loaded file segs base va = loaded file segs other va := by
  induction segs generalizing base other with
  | nil => exact same
  | cons ph rest ih =>
    apply ih
    rw [same]

theorem uintAt_lt (bytes : List UInt8) (off : Nat) : uintAt bytes off < 2 ^ 32 := by
  have b0 := (bytes.getD off 0).toNat_lt
  have b1 := (bytes.getD (off + 1) 0).toNat_lt
  have b2 := (bytes.getD (off + 2) 0).toNat_lt
  have b3 := (bytes.getD (off + 2 + 1) 0).toNat_lt
  unfold uintAt ushortAt
  omega

theorem wp_loadSegments {post : PageDir × Option Nat → Mem → Prop} (left off sz : Nat) (building : Building m m' pd)
    (space : Space pd (pagesFor sz)) (below : sz < KERNBASE) (nodup : m.freelist.Nodup) (usable : m.Usable m.freelist)
    (small : file.length < 2 ^ 32)
    (failed : ∀ pd' m'', Building m m'' pd' →
      (∀ sz', segmentsSize file left off sz = some sz' → m.freelist.length < pagesNeeded (pagesFor sz')) → post (pd', none) m'')
    (done : ∀ pd' m'' sz', segmentsSize file left off sz = some sz' → Building m m'' pd' → Space pd' (pagesFor sz') →
      (∀ va < KERNBASE, userByte m'' pd' va = loaded file (segments file left off) (userByte m' pd) va) →
      post (pd', some sz') m'') :
    wp (loadSegments file left off pd sz) post stop m' := by
  induction left generalizing off sz pd m' with
  | zero => exact wp_pure.mpr (done pd m' sz rfl building space fun _ _ => rfl)
  | succ left ih =>
    unfold loadSegments
    unfold segmentsSize at failed done
    unfold segments at done
    split
    next none =>
      rw [none] at failed
      exact wp_pure.mpr (failed pd m' building nofun)
    next bytes read =>
      rw [read] at failed done
      dsimp only at failed done ⊢
      generalize header : Proghdr.ofBytes bytes = ph at failed done ⊢
      have vaddr : ph.vaddr < 2 ^ 32 := header ▸ uintAt_lt bytes 8
      have memsz : ph.memsz < 2 ^ 32 := header ▸ uintAt_lt bytes 20
      have offset : ph.off < 2 ^ 32 := header ▸ uintAt_lt bytes 4
      by_cases other : ph.type ≠ ELF_PROG_LOAD
      · rw [if_pos other] at failed done ⊢
        rw [if_pos other] at done
        exact ih _ sz building space below failed done
      · rw [if_neg other] at failed done ⊢
        rw [if_neg other] at done
        have bad : ¬ Loadable file sz ph → ∀ pd' m'', Building m m'' pd' → post (pd', none) m'' := by
          intro not pd' m'' built
          rw [if_neg not] at failed
          exact failed pd' m'' built nofun
        by_cases part : ph.memsz < ph.filesz
        · rw [if_pos part]
          exact wp_pure.mpr (bad (fun loadable => not_lt.mpr loadable.1 part) pd m' building)
        by_cases wraps : (ph.vaddr + ph.memsz) % 2 ^ 32 < ph.vaddr
        · rw [if_neg part, if_pos wraps]
          refine wp_pure.mpr (bad (fun loadable => ?_) pd m' building)
          have := loadable.2.1
          unfold KERNBASE at this
          omega
        have whole : (ph.vaddr + ph.memsz) % 2 ^ 32 = ph.vaddr + ph.memsz := by omega
        rw [if_neg part, if_neg wraps, whole, wp_bind]
        have sound := building.sound nodup usable
        -- after `allocuvm` has made the image as large as the segment needs
        have load : ∀ pd₁ m₁, Building m m₁ pd₁ → ph.vaddr + ph.memsz < KERNBASE →
            Space pd₁ (pagesFor (max sz (ph.vaddr + ph.memsz))) →
            (∀ va < KERNBASE, userByte m₁ pd₁ va = userByte m' pd va) →
            wp (if max sz (ph.vaddr + ph.memsz) = 0 then return (pd₁, none)
              else if ph.vaddr % PGSIZE ≠ 0 then return (pd₁, none)
              else do
                if ← loaduvm pd₁ ph.vaddr file ph.off ph.filesz then
                  loadSegments file left ((off + PROGHDR) % 2 ^ 32) pd₁ (max sz (ph.vaddr + ph.memsz))
                else
                  return (pd₁, none)) post stop m₁ := by
          intro pd₁ m₁ building₁ high space₁ same
          have larger : max sz (ph.vaddr + ph.memsz) < KERNBASE := Nat.max_lt.mpr ⟨below, high⟩
          by_cases zero : max sz (ph.vaddr + ph.memsz) = 0
          · rw [if_pos zero]
            exact wp_pure.mpr (bad (fun loadable => lt_irrefl 0 (zero ▸ loadable.2.2.1)) pd₁ m₁ building₁)
          by_cases odd : ph.vaddr % PGSIZE ≠ 0
          · rw [if_neg zero, if_pos odd]
            exact wp_pure.mpr (bad (fun loadable => odd loadable.2.2.2.1) pd₁ m₁ building₁)
          rw [if_neg zero, if_neg odd, wp_bind]
          have inside : ph.vaddr + ph.filesz ≤ PGSIZE * pagesFor (max sz (ph.vaddr + ph.memsz)) := by
            unfold pagesFor PGSIZE
            omega
          apply wp_loaduvm space₁ (pagesFor_le (le_of_lt larger)) (building₁.sound nodup usable) small
            (not_not.mp odd) inside offset
          · intro m₂ written more short
            refine wp_pure.mpr (bad (fun loadable => ?_) pd₁ m₂ (building₁.written written))
            exact not_lt.mpr (loadable.2.2.2.2 more) short
          · intro m₂ written whole bytes
            have loadable : Loadable file sz ph := ⟨by omega, high, by omega, not_not.mp odd, whole⟩
            rw [if_pos loadable] at failed done
            apply ih _ _ (building₁.written written) space₁ larger
            · exact failed
            · intro pd₃ m₃ sz' size building₃ space₃ image
              refine done pd₃ m₃ sz' size building₃ space₃ fun va inside => ?_
              rw [image va inside]
              apply loaded_congr
              rw [bytes va inside, same va inside]
        apply wp_allocuvm (le_of_lt below) sound.usable
        · intro w inside high
          exact space.absent w high inside
        · intro high
          dsimp only
          rw [if_pos rfl]
          exact wp_pure.mpr (bad (fun loadable => not_lt.mpr high loadable.2.1) pd m' building)
        · intro high fewer
          have same : max sz (ph.vaddr + ph.memsz) = sz := by omega
          have here := load pd m' building high (by rw [same]; exact space) fun _ _ => rfl
          rw [same] at here
          exact here
        · intro pd₁ m₁ undone short
          dsimp only
          rw [if_pos rfl]
          refine wp_pure.mpr ?_
          by_cases loadable : Loadable file sz ph
          · refine failed pd₁ m₁ (building.undone undone) fun sz' size => ?_
            rw [if_pos loadable] at size
            have bound := segmentsSize_ge size
            by_cases order : pagesFor sz ≤ pagesFor (ph.vaddr + ph.memsz)
            · have fewer := building.short space order (pagesFor_le (le_of_lt loadable.2.1)) short
              have more := pagesNeeded_mono (pagesFor_mono ((le_max_right sz _).trans bound))
              omega
            · have none := short (tableSet (pagesFor sz)) (fun i there => (mem_tableSet _ i).mpr ((space.tables i).mp there))
                fun w low high => by omega
              rw [card_tableSet (pagesFor_le (le_of_lt below)), space.card_tables (pagesFor_le (le_of_lt below))] at none
              omega
          · exact bad loadable pd₁ m₁ (building.undone undone)
        · intro high more pd₁ m₁ grown
          have same : max sz (ph.vaddr + ph.memsz) = ph.vaddr + ph.memsz := by omega
          have here := load pd₁ m₁ (building.grown grown) high
            (by
              rw [same]
              exact space.grown (pagesFor_mono more) (pagesFor_le (le_of_lt high)) grown)
            fun va inside => grown.userByte sound space.absent inside
          rw [same] at here
          exact here

end Segments

end Xv6.Vm
