import Xv6.Lib.RingBuffer
import Xv6.Lib.Transition
import Xv6.Proc.Sleep

/-! The input side of `console.c` as a transition system over any set of processes. The
atomic steps are the stretches of code under `cons.lock`. The list of returned reads is never read
by the code. -/

namespace Xv6.Console
open Lib Proc

def INPUT_BUF : Nat := 128

instance : NeZero INPUT_BUF := ⟨by decide⟩

def LF : UInt8 := 10

def CR : UInt8 := 13

def DEL : UInt8 := 0x7f

-- Control-x
def C (x : Char) : UInt8 := x.toNat.toUInt8 - '@'.toNat.toUInt8

-- what `consputc` takes for "erase the last character"
def BACKSPACE : Nat := 0x100

structure Input where
  buf : Fin INPUT_BUF → UInt8
  r : BitVec 32
  w : BitVec 32
  e : BitVec 32

def Input.ring (input : Input) : RingBuffer INPUT_BUF 32 UInt8 := ⟨input.buf, input.r, input.e⟩

-- input.buf[i % INPUT_BUF]
def Input.char (input : Input) (i : BitVec 32) : UInt8 := input.buf (RingBuffer.slot i)

-- input.buf[input.e++ % INPUT_BUF] = c
def Input.put (input : Input) (c : UInt8) : Input :=
  { input with buf := Function.update input.buf (RingBuffer.slot input.e) c, e := input.e + 1 }

inductive Chan where
  | r
  deriving DecidableEq, Repr

inductive Pc where
  | user
  -- in `consoleread` at `acquire(&cons.lock)` or on the way back from `sleep`, with `n`
  -- bytes of `target` missing and `dst` copied so far
  | reading (target n : Nat) (dst : List UInt8)
  deriving DecidableEq, Repr

structure Return (ι : Type) where
  reader : ι
  target : Nat
  dst : List UInt8
  ret : Int
  deriving DecidableEq, Repr

structure State (ι : Type) where
  input : Input
  procs : ι → Proc Chan Pc
  -- the arguments of `consputc` in the loop of `consoleintr`, oldest first
  echoed : List Nat
  returned : List (Return ι)

variable {ι : Type}

-- input.e--; consputc(BACKSPACE);
def State.erase (s : State ι) : State ι :=
  { s with input := { s.input with e := s.input.e - 1 }, echoed := s.echoed ++ [BACKSPACE] }

/-- The loop under `case C('U')`. -/
def killLineFrom : Nat → State ι → State ι
  | 0, s => s
  | rounds + 1, s =>
    if s.input.e ≠ s.input.w ∧ s.input.char (s.input.e - 1) ≠ LF then killLineFrom rounds s.erase else s

def killLine (s : State ι) : State ι := killLineFrom (s.input.e - s.input.w).toNat s

-- input.w = input.e; wakeup(&input.r);
def State.commit (s : State ι) : State ι :=
  { s with input := { s.input with w := s.input.e }, procs := wakeup s.procs .r }

def insert (s : State ι) (c : UInt8) : State ι :=
  if c ≠ 0 ∧ s.input.e - s.input.r < BitVec.ofNat 32 INPUT_BUF then
    let c := if c = CR then LF else c
    let s := { s with input := s.input.put c, echoed := s.echoed ++ [c.toNat] }
    if c = LF ∨ c = C 'D' ∨ s.input.e = s.input.r + BitVec.ofNat 32 INPUT_BUF then s.commit else s
  else s

/-- The `switch` of `consoleintr`; `procdump` only prints. -/
def intrChar (s : State ι) (c : UInt8) : State ι :=
  if c = C 'P' then s
  else if c = C 'U' then killLine s
  else if c = C 'H' ∨ c = DEL then
    if s.input.e ≠ s.input.w then s.erase else s
  else insert s c

/-- One call, with the characters that `getc` yields. -/
def consoleintr (s : State ι) (chars : List UInt8) : State ι := chars.foldl intrChar s

inductive Exit where
  | returns | killed | sleeps
  deriving DecidableEq, Repr

structure ReadState where
  input : Input
  n : Nat
  dst : List UInt8
  exit : Exit

/-- The outer loop of `consoleread`, with where it leaves off. -/
def readLoop (killed : Bool) (target : Nat) : Input → Nat → List UInt8 → ReadState
  | input, 0, dst => ⟨input, 0, dst, .returns⟩
  | input, n + 1, dst =>
    if input.r = input.w then
      ⟨input, n + 1, dst, if killed then .killed else .sleeps⟩
    else
      let c := input.char input.r
      let input := { input with r := input.r + 1 }
      if c = C 'D' then
        ⟨if n + 1 < target then { input with r := input.r - 1 } else input, n + 1, dst, .returns⟩
      else if c = LF then ⟨input, n, dst ++ [c], .returns⟩
      else readLoop killed target input n (dst ++ [c])

variable [DecidableEq ι]

def readSection (s : State ι) (i : ι) (target n : Nat) (dst : List UInt8) : State ι :=
  let after := readLoop (s.procs i).killed target s.input n dst
  match after.exit with
  | .returns =>
    { s with
      input := after.input, procs := jump s.procs i .user
      returned := s.returned ++ [⟨i, target, after.dst, (target : Int) - after.n⟩] }
  | .killed =>
    { s with
      input := after.input, procs := jump s.procs i .user
      returned := s.returned ++ [⟨i, target, after.dst, -1⟩] }
  | .sleeps =>
    { s with
      input := after.input, procs := sleep s.procs i .r (.reading target after.n after.dst) }

inductive Label (ι : Type) where
  | schedule (i : ι)
  | yield (i : ι)
  | kill (i : ι)
  | consoleintr (chars : List UInt8)
  | consoleread (i : ι) (n : Nat)
  -- the process gets `cons.lock`
  | go (i : ι)
  deriving DecidableEq

def step (s : State ι) : Label ι → Option (State ι)
  | .schedule i =>
    if (s.procs i).state = .runnable then some { s with procs := schedule s.procs i } else none
  | .yield i =>
    if (s.procs i).state = .running then some { s with procs := yield s.procs i } else none
  | .kill i => some { s with procs := kill s.procs i }
  | .consoleintr chars => some (consoleintr s chars)
  | .consoleread i n =>
    if (s.procs i).state = .running ∧ (s.procs i).pc = .user then
      some { s with procs := jump s.procs i (.reading n n []) }
    else none
  | .go i =>
    match (s.procs i).pc with
    | .reading target n dst =>
      if (s.procs i).state = .running then some (readSection s i target n dst) else none
    | .user => none

structure Initial (s : State ι) : Prop where
  r : s.input.r = 0
  w : s.input.w = 0
  e : s.input.e = 0
  user : ∀ i, (s.procs i).pc = .user
  awake : ∀ i, ¬ (s.procs i).SleepsOn .r
  alive : ∀ i, (s.procs i).killed = false
  echoed : s.echoed = []
  returned : s.returned = []

end Xv6.Console
