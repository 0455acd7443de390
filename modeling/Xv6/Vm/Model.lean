import Mathlib.Algebra.Order.Group.Nat
import Xv6.Lib.Bytes
import Xv6.Lib.Hoare
import Xv6.Param

/-! `vm.c` over the pages of `kalloc.c`, and the layout of the address space. Addresses are 32-bit
numbers; a page is known by its number, and a page directory is the tree that the hardware walks,
with the page of each part. -/

namespace Xv6.Vm

def NPDENTRIES : Nat := 1024
def NPTENTRIES : Nat := 1024

def EXTMEM : Nat := 0x100000
def PHYSTOP : Nat := 0xE000000
def DEVSPACE : Nat := 0xFE000000
def KERNBASE : Nat := 0x80000000
def KERNLINK : Nat := KERNBASE + EXTMEM

def pdx (va : Nat) : Nat := va / 2 ^ 22 % 1024

def ptx (va : Nat) : Nat := va / 2 ^ 12 % 1024

def pgaddr (d t o : Nat) : Nat := (d * 2 ^ 22 + t * 2 ^ 12 + o) % 2 ^ 32

def pgroundup (sz : Nat) : Nat := (sz + PGSIZE - 1) % 2 ^ 32 / PGSIZE * PGSIZE

def pgrounddown (a : Nat) : Nat := a / PGSIZE * PGSIZE

/-! Most facts about addresses are arithmetic once the constants are numbers. -/

section Arithmetic

variable {v w a sz : Nat}

def UPAGES : Nat := KERNBASE / PGSIZE

theorem upages_eq : UPAGES = 2 ^ 19 := by decide

theorem upages_le : UPAGES ≤ 2 ^ 20 := by decide

theorem pdx_page (small : v < 2 ^ 20) : pdx (PGSIZE * v) = v / 1024 := by
  unfold pdx PGSIZE
  omega

theorem ptx_page (v : Nat) : ptx (PGSIZE * v) = v % 1024 := by
  unfold ptx PGSIZE
  omega

theorem pdx_lt (a : Nat) : pdx a < NPDENTRIES := Nat.mod_lt _ (by decide)

theorem page_eq (smallV : v < 2 ^ 20) (smallW : w < 2 ^ 20) (dir : pdx (PGSIZE * v) = pdx (PGSIZE * w))
    (entry : ptx (PGSIZE * v) = ptx (PGSIZE * w)) : v = w := by
  rw [pdx_page smallV, pdx_page smallW] at dir
  rw [ptx_page, ptx_page] at entry
  omega

def pagesFor (sz : Nat) : Nat := (sz + PGSIZE - 1) / PGSIZE

theorem pgroundup_eq (small : sz ≤ KERNBASE) : pgroundup sz = PGSIZE * pagesFor sz := by
  unfold pgroundup pagesFor PGSIZE
  unfold KERNBASE at small
  omega

theorem pagesFor_le (small : sz ≤ KERNBASE) : pagesFor sz ≤ UPAGES := by
  unfold pagesFor UPAGES KERNBASE PGSIZE
  unfold KERNBASE at small
  omega

theorem page_lt_iff : PGSIZE * v < sz ↔ v < pagesFor sz := by
  unfold pagesFor PGSIZE
  omega

theorem pagesFor_mul (v : Nat) : pagesFor (PGSIZE * v) = v := by
  unfold pagesFor PGSIZE
  omega

theorem pagesFor_mono (order : a ≤ sz) : pagesFor a ≤ pagesFor sz := by
  unfold pagesFor PGSIZE
  omega

theorem pgrounddown_eq (a : Nat) : pgrounddown a = PGSIZE * (a / PGSIZE) := Nat.mul_comm ..

end Arithmetic

end Xv6.Vm

namespace Xv6.Vm
open Lib

abbrev Page := Bytes PGSIZE

def PTE_P : BitVec 12 := 0x001
def PTE_W : BitVec 12 := 0x002
def PTE_U : BitVec 12 := 0x004

/-- A page-table entry: the number of the page, and the flags. -/
structure Pte where
  ppn : Nat
  flags : BitVec 12
  deriving DecidableEq, Repr

def Pte.zero : Pte := ⟨0, 0⟩

def Pte.present (e : Pte) : Bool := e.flags &&& PTE_P ≠ 0

def Pte.user (e : Pte) : Bool := e.flags &&& PTE_U ≠ 0

structure Table where
  page : Nat
  entry : Nat → Pte

structure PageDir where
  page : Nat
  table : Nat → Option Table

structure Mem where
  -- `kmem.freelist`
  freelist : List Nat
  content : Nat → Page
  -- the physical addresses of the linker's `end` and `data`
  kend : Nat
  data : Nat

inductive Stop where
  | panic (message : String)
  -- `uva2ka` follows the null pointer that `walkpgdir` returned
  | nullPte
  -- a loop has not ended
  | fuel
  deriving DecidableEq, Repr

abbrev VmM := StateT Mem (Except Stop)

def panic {α : Type} (message : String) : VmM α := throw (.panic message)

def setPage (page : Nat) (content : Page) : VmM Unit :=
  modify fun m => { m with content := Function.update m.content page content }

def kalloc : VmM (Option Nat) := do
  let m ← get
  match m.freelist with
  | [] => return none
  | r :: rest => do
    set { m with freelist := rest }
    return some r

/-- A page that `freerange` has handed to the allocator. -/
def Mem.Valid (m : Mem) (page : Nat) : Prop := m.kend ≤ PGSIZE * page ∧ PGSIZE * page < PHYSTOP

instance (m : Mem) (page : Nat) : Decidable (m.Valid page) := inferInstanceAs (Decidable (_ ∧ _))

def junk : Page := fun _ => 1

def kfree (page : Nat) : VmM Unit := do
  let m ← get
  if ¬ m.Valid page then
    panic "kfree"
  else
    set { m with
      content := Function.update m.content page junk
      freelist := page :: m.freelist }

namespace PageDir

/-- What the pointer that `walkpgdir` returns for `va` points at. -/
def pte (pd : PageDir) (va : Nat) : Option Pte := (pd.table (pdx va)).map fun table => table.entry (ptx va)

/-- `*pte = e` through that pointer. -/
def setPte (pd : PageDir) (va : Nat) (e : Pte) : PageDir :=
  match pd.table (pdx va) with
  | none => pd
  | some table => { pd with
    table := Function.update pd.table (pdx va) (some { table with entry := Function.update table.entry (ptx va) e }) }

end PageDir

def walkpgdir (pd : PageDir) (va : Nat) (alloc : Bool) : VmM (PageDir × Option Pte) :=
  match pd.pte va with
  | some e => return (pd, some e)
  | none =>
    if alloc = false then
      return (pd, none)
    else do
      match ← kalloc with
      | none => return (pd, none)
      | some pgtab =>
        return ({ pd with table := Function.update pd.table (pdx va) (some ⟨pgtab, fun _ => Pte.zero⟩) }, some Pte.zero)

def mappagesFrom : Nat → PageDir → Nat → Nat → Nat → BitVec 12 → VmM (PageDir × Bool)
  | 0, _, _, _, _, _ => throw .fuel
  | fuel + 1, pd, a, last, pa, perm => do
    match ← walkpgdir pd a true with
    | (pd, none) => return (pd, false)
    | (pd, some e) =>
      if e.present then
        panic "remap"
      else
        let pd := pd.setPte a ⟨pa / PGSIZE, perm ||| PTE_P⟩
        if a = last then
          return (pd, true)
        else
          mappagesFrom fuel pd ((a + PGSIZE) % 2 ^ 32) last ((pa + PGSIZE) % 2 ^ 32) perm

def mappages (pd : PageDir) (va size pa : Nat) (perm : BitVec 12) : VmM (PageDir × Bool) :=
  mappagesFrom (2 ^ 20) pd (pgrounddown va) (pgrounddown ((va + size + 2 ^ 32 - 1) % 2 ^ 32)) pa perm

def deallocuvmFrom : Nat → PageDir → Nat → Nat → VmM PageDir
  | 0, _, _, _ => throw .fuel
  | fuel + 1, pd, a, oldsz =>
    if a < oldsz then
      match pd.pte a with
      | none => deallocuvmFrom fuel pd ((pgaddr (pdx a + 1) 0 0 + 2 ^ 32 - PGSIZE + PGSIZE) % 2 ^ 32) oldsz
      | some e =>
        if e.present then
          if e.ppn = 0 then
            panic "kfree"
          else do
            kfree e.ppn
            deallocuvmFrom fuel (pd.setPte a Pte.zero) ((a + PGSIZE) % 2 ^ 32) oldsz
        else
          deallocuvmFrom fuel pd ((a + PGSIZE) % 2 ^ 32) oldsz
    else
      return pd

def deallocuvm (pd : PageDir) (oldsz newsz : Nat) : VmM (PageDir × Nat) :=
  if newsz ≥ oldsz then
    return (pd, oldsz)
  else do
    let pd ← deallocuvmFrom (2 ^ 20 + 1) pd (pgroundup newsz) oldsz
    return (pd, newsz)

def freeTables (pd : PageDir) : VmM Unit :=
  (List.range NPDENTRIES).forM fun i =>
    match pd.table i with
    | none => return ()
    | some table => kfree table.page

def freevm (pd : PageDir) : VmM Unit := do
  let (pd, _) ← deallocuvm pd KERNBASE 0
  freeTables pd
  kfree pd.page

structure Kmap where
  virt : Nat
  physStart : Nat
  physEnd : Nat
  perm : BitVec 12

def kmap (data : Nat) : List Kmap :=
  [⟨KERNBASE, 0, EXTMEM, PTE_W⟩,
    ⟨KERNLINK, KERNLINK - KERNBASE, data, 0⟩,
    ⟨KERNBASE + data, data, PHYSTOP, PTE_W⟩,
    ⟨DEVSPACE, DEVSPACE, 0, PTE_W⟩]

def mapKernel (pd : PageDir) : List Kmap → VmM (PageDir × Bool)
  | [] => return (pd, true)
  | k :: rest => do
    match ← mappages pd k.virt ((k.physEnd + 2 ^ 32 - k.physStart) % 2 ^ 32) k.physStart k.perm with
    | (pd, false) => return (pd, false)
    | (pd, true) => mapKernel pd rest

def setupkvm : VmM (Option PageDir) := do
  match ← kalloc with
  | none => return none
  | some page =>
    if KERNBASE + PHYSTOP > DEVSPACE then
      panic "PHYSTOP too high"
    else do
      match ← mapKernel ⟨page, fun _ => none⟩ (kmap (← get).data) with
      | (pd, true) => return some pd
      | (pd, false) => do
        freevm pd
        return none

/-- The loop of `allocuvm`; the size is 0 on failure. -/
def allocuvmFrom : Nat → PageDir → Nat → Nat → Nat → VmM (PageDir × Nat)
  | 0, _, _, _, _ => throw .fuel
  | fuel + 1, pd, a, oldsz, newsz =>
    if a < newsz then do
      match ← kalloc with
      | none => do
        let (pd, _) ← deallocuvm pd newsz oldsz
        return (pd, 0)
      | some mem => do
        setPage mem Bytes.zero
        match ← mappages pd a PGSIZE (PGSIZE * mem) (PTE_W ||| PTE_U) with
        | (pd, false) => do
          let (pd, _) ← deallocuvm pd newsz oldsz
          kfree mem
          return (pd, 0)
        | (pd, true) => allocuvmFrom fuel pd ((a + PGSIZE) % 2 ^ 32) oldsz newsz
    else
      return (pd, newsz)

def allocuvm (pd : PageDir) (oldsz newsz : Nat) : VmM (PageDir × Nat) :=
  if newsz ≥ KERNBASE then
    return (pd, 0)
  else if newsz < oldsz then
    return (pd, oldsz)
  else
    allocuvmFrom (2 ^ 20 + 1) pd (pgroundup oldsz) oldsz newsz

def clearpteu (pd : PageDir) (uva : Nat) : VmM PageDir :=
  match pd.pte uva with
  | none => panic "clearpteu"
  | some e => return pd.setPte uva { e with flags := e.flags &&& ~~~PTE_U }

/-- The page that user address `uva` is in; `none` is 0. -/
def uva2ka (pd : PageDir) (uva : Nat) : VmM (Option Nat) :=
  match pd.pte uva with
  | none => throw .nullPte
  | some e => return if e.present = false then none else if e.user = false then none else some e.ppn

def copyoutFrom : Nat → PageDir → Nat → List UInt8 → VmM Bool
  | 0, _, _, buf => if buf.length > 0 then throw .fuel else return true
  | fuel + 1, pd, va, buf =>
    if buf.length > 0 then do
      let va0 := pgrounddown va
      match ← uva2ka pd va0 with
      | none => return false
      | some pa0 => do
        let n := min (PGSIZE - (va - va0)) buf.length
        setPage pa0 (((← get).content pa0).blit (va - va0) (buf.take n))
        copyoutFrom fuel pd ((va0 + PGSIZE) % 2 ^ 32) (buf.drop n)
    else
      return true

def copyout (pd : PageDir) (va : Nat) (buf : List UInt8) : VmM Bool := copyoutFrom buf.length pd va buf

/-- `readi` of a file with these bytes. -/
def readi (file : List UInt8) (off n : Nat) : Option (List UInt8) :=
  if off > file.length ∨ (off + n) % 2 ^ 32 < off then none else some ((file.drop off).take n)

/-- The loop of `loaduvm`, with `i` bytes done; `false` is -1. -/
def loaduvmFrom : Nat → PageDir → Nat → List UInt8 → Nat → Nat → Nat → VmM Bool
  | 0, _, _, _, _, _, _ => throw .fuel
  | fuel + 1, pd, addr, file, offset, sz, i =>
    if i < sz then
      match pd.pte ((addr + i) % 2 ^ 32) with
      | none => panic "loaduvm: address should exist"
      | some e =>
        let n := if sz - i < PGSIZE then sz - i else PGSIZE
        match readi file ((offset + i) % 2 ^ 32) n with
        | none => return false
        | some bytes => do
          setPage e.ppn (((← get).content e.ppn).blit 0 bytes)
          if bytes.length ≠ n then
            return false
          else
            loaduvmFrom fuel pd addr file offset sz ((i + PGSIZE) % 2 ^ 32)
    else
      return true

def loaduvm (pd : PageDir) (addr : Nat) (file : List UInt8) (offset sz : Nat) : VmM Bool :=
  if addr % PGSIZE ≠ 0 then
    panic "loaduvm: addr must be page aligned"
  else
    loaduvmFrom (2 ^ 20 + 1) pd addr file offset sz 0

/-- What `growproc` and `exec` use of `struct proc`. -/
structure Proc where
  pgdir : PageDir
  sz : Nat
  -- of the trap frame
  eip : Nat
  esp : Nat
  name : List UInt8

/-- The caller goes on with `sz`, or returns -1 if it is 0. -/
def resize (p : Proc) (pgdir : PageDir) (sz : Nat) : Proc × Int :=
  if sz = 0 then ({ p with pgdir := pgdir }, -1) else ({ p with pgdir := pgdir, sz := sz }, 0)

def growproc (p : Proc) (n : Int) : VmM (Proc × Int) := do
  let newsz := ((p.sz + n) % 2 ^ 32).toNat
  if n > 0 then do
    let (pgdir, sz) ← allocuvm p.pgdir p.sz newsz
    return resize p pgdir sz
  else if n < 0 then do
    let (pgdir, sz) ← deallocuvm p.pgdir p.sz newsz
    return resize p pgdir sz
  else
    return (p, 0)

end Xv6.Vm
