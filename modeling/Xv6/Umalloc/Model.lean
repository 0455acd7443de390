import Xv6.Lib.Ring
import Xv6.Lib.Transition
import Mathlib.Data.BitVec

/-! The allocator of `umalloc.c`. Memory is seen as the headers that can be read at its
addresses; pointers and sizes are 32-bit words. The loops are cut off after a number of rounds.
`live` lists the blocks that are given out with the bytes asked for; the code never reads it. -/

namespace Xv6.Umalloc
open Lib Function

structure Header where
  ptr : Nat
  size : Nat
  deriving DecidableEq, Repr

structure State where
  mem : Nat → Header
  freep : Nat
  brk : Nat
  live : List (Nat × Nat)

-- p + n for a pointer to headers
def plus (p n : Nat) : Nat := (p + 8 * n) % 2 ^ 32

def setPtr (mem : Nat → Header) (p ptr : Nat) : Nat → Header :=
  Function.update mem p { mem p with ptr := ptr }

def setSize (mem : Nat → Header) (p size : Nat) : Nat → Header :=
  Function.update mem p { mem p with size := size }

def next (mem : Nat → Header) (p : Nat) : Nat := (mem p).ptr

theorem next_update (mem : Nat → Header) (p z : Nat) (header : Header) :
    next (update mem p header) z = if z = p then header.ptr else next mem z := by
  unfold next
  by_cases here : z = p
  · rw [if_pos here, here, update_self]
  · rw [if_neg here, update_of_ne here]

theorem next_setPtr (mem : Nat → Header) (p ptr z : Nat) :
    next (setPtr mem p ptr) z = if z = p then ptr else next mem z := next_update mem p z _

theorem size_setPtr (mem : Nat → Header) (p ptr z : Nat) : (setPtr mem p ptr z).size = (mem z).size := by
  unfold setPtr
  by_cases here : z = p
  · rw [here, update_self]
  · rw [update_of_ne here]

theorem next_setSize (mem : Nat → Header) (p size z : Nat) : next (setSize mem p size) z = next mem z := by
  rw [setSize, next_update]
  split
  · next here => rw [here]; rfl
  · rfl

theorem size_setSize (mem : Nat → Header) (p size z : Nat) :
    (setSize mem p size z).size = if z = p then size else (mem z).size := by
  unfold setSize
  by_cases here : z = p
  · rw [if_pos here, here, update_self]
  · rw [if_neg here, update_of_ne here]

/-- `free` joins the block `bp` to the upper neighbour, behind `p` in the list. -/
def joinUpper (mem : Nat → Header) (bp p : Nat) : Nat → Header :=
  if plus bp (mem bp).size = (mem p).ptr then
    Function.update mem bp ⟨(mem (mem p).ptr).ptr, ((mem bp).size + (mem (mem p).ptr).size) % 2 ^ 32⟩
  else setPtr mem bp (mem p).ptr

def joinLower (mem : Nat → Header) (bp p : Nat) : Nat → Header :=
  if plus p (mem p).size = bp then
    Function.update mem p ⟨(mem bp).ptr, ((mem p).size + (mem bp).size) % 2 ^ 32⟩
  else setPtr mem p bp

/-- The loop in `free` ends at the node where the block belongs. -/
def free (fuel : Nat) (s : State) (ap : Nat) : Option State :=
  let bp := ap - 8
  (Ring.walk (next s.mem) (Ring.Fits (next s.mem) bp) fuel s.freep).map fun p =>
    { s with mem := joinLower (joinUpper s.mem bp p) bp p, freep := p }

/-- `sbrk` refuses, or moves the break and returns the old one. -/
def sbrk (s : State) (n : Int) (granted : Bool) : Option (State × Nat) :=
  if granted ∧ 0 ≤ s.brk + n ∧ s.brk + n < 2 ^ 32 then some ({ s with brk := (s.brk + n).toNat }, s.brk) else none

def morecore (fuel : Nat) (s : State) (nu : Nat) (granted : Bool) : Option (State × Nat) :=
  let nu := if nu < 4096 then 4096 else nu
  match sbrk s (BitVec.ofNat 32 (nu * 8)).toInt granted with
  | none => some (s, 0)
  | some (s, p) => (free fuel { s with mem := setSize s.mem p nu } (plus p 1)).map fun s => (s, s.freep)

/-- `malloc` has found a block that is large enough. -/
def take (s : State) (nunits prevp p : Nat) : State × Nat :=
  if (s.mem p).size = nunits then
    ({ s with mem := setPtr s.mem prevp (s.mem p).ptr, freep := prevp }, plus p 1)
  else
    let rest := (s.mem p).size - nunits
    let q := plus p rest
    ({ s with mem := setSize (setSize s.mem p rest) q nunits, freep := prevp }, plus q 1)

/-- The loop in `malloc`, with the answers that `sbrk` will give. -/
def search (fuel nunits : Nat) : Nat → List Bool → State → Nat → Nat → Option (State × Nat)
  | 0, _, _, _, _ => none
  | rounds + 1, answers, s, prevp, p =>
    if (s.mem p).size ≥ nunits then some (take s nunits prevp p)
    else if p = s.freep then
      match morecore fuel s nunits (answers.headD false) with
      | none => none
      | some (s, p) => if p = 0 then some (s, 0) else search fuel nunits rounds answers.tail s p (next s.mem p)
    else search fuel nunits rounds answers s p (next s.mem p)

def units (nbytes : Nat) : Nat := (nbytes + 8 - 1) % 2 ^ 32 / 8 + 1

variable (base : Nat)

def init (s : State) : State :=
  if s.freep = 0 then { s with mem := Function.update s.mem base ⟨base, 0⟩, freep := base } else s

def malloc (fuel : Nat) (s : State) (nbytes : Nat) (answers : List Bool) : Option (State × Nat) :=
  let s := init base s
  search fuel (units nbytes) fuel answers s s.freep (next s.mem s.freep)

inductive Label where
  | malloc (nbytes : Nat) (answers : List Bool)
  | free (ap : Nat)
  -- the program writes to a block that it has
  | write (x : Nat) (header : Header)

/-- No loop goes on for more rounds than there are addresses. -/
def step (s : State) : Label → Option State
  | .malloc nbytes answers =>
    (malloc base s.brk s nbytes answers).map fun out =>
      if out.2 = 0 then out.1 else { out.1 with live := (out.2 - 8, nbytes) :: out.1.live }
  | .free ap =>
    if ∃ block ∈ s.live, ap = block.1 + 8 then
      (free s.brk s ap).map fun t => { t with live := t.live.filter fun block => ap ≠ block.1 + 8 }
    else none
  | .write x header =>
    if ∃ block ∈ s.live, block.1 < x ∧ x < block.1 + 8 * (s.mem block.1).size then
      some { s with mem := Function.update s.mem x header }
    else none

/-- The program has been loaded; the break is above its data. -/
structure Initial (s : State) : Prop where
  freep : s.freep = 0
  static : 0 < base
  above : base + 8 ≤ s.brk
  brk : s.brk < 2 ^ 32
  live : s.live = []

end Xv6.Umalloc
