import Xv6.Bio.Cache
import Xv6.Lib.RedoLog
import Xv6.Lib.Transition
import Xv6.Log.Log

/-! The log, the buffer cache and the disk as one machine. A step is one critical section or one
access to the disk, and a crash may follow any of them; a step that would panic is not enabled.
Operations pass what they modify to `log_write` and keep to blocks outside of the log and of the
superblock. `History` records what the operations since the last boot did. -/

namespace Xv6.Log.Machine
open Lib Lib.Transition

inductive Loop where
  | write_log
  | install_trans
  deriving DecidableEq, Repr

/-- Where a process goes on when its call of `bread` or `brelse` returns. -/
inductive Pc where
  | user
  | begin
  | op
  | logging (k : Fin NBUF)
  | commit
  | finish
  | loop (which : Loop) (tail : Nat)
  | second (which : Loop) (tail : Nat) (log : Fin NBUF)
  | copy (which : Loop) (tail : Nat) (log home : Fin NBUF)
  | release (which : Loop) (tail : Nat) (log home : Fin NBUF)
  | releaseLast (which : Loop) (tail : Nat) (k : Fin NBUF)
  | head (clear : Bool)
  | writeHead (clear : Bool) (k : Fin NBUF)
  | releaseHead (clear : Bool) (k : Fin NBUF)
  | returned
  | readsb (k : Fin NBUF)
  | readHead
  | gotHead (k : Fin NBUF)
  deriving DecidableEq, Repr

/-- `off` until `initlog` is called, `booting` while it runs. -/
inductive Phase where
  | off | booting | on
  deriving DecidableEq, Repr

/-- One modification of a block by the operation numbered `op`. -/
structure Update where
  op : Nat
  block : Nat
  data : Block

def Update.write (u : Update) : Nat × Block := (u.block, u.data)

structure History (ι : Type) where
  init : Nat → Block
  -- the updates of the commit groups, then those since the last group was closed
  groups : List (List Update)
  current : List Update
  -- how many groups are in the log's header or further, and how many calls of `commit` returned
  durable : Nat
  returned : Nat
  op : ι → Nat
  nextOp : Nat
  ended : List Nat

structure State (ι : Type) where
  disk : Addr → Block
  cache : Cache ι Block
  log : Log
  phase : Phase
  pc : ι → Pc
  past : History ι

inductive Label (ι : Type) where
  | crash
  | initlog (i : ι) (k : Fin NBUF)
  | begin_op (i : ι)
  | bread (i : ι) (b : Nat) (k : Fin NBUF)
  | modify (i : ι) (k : Fin NBUF) (data : Block)
  | log_write (i : ι) (k : Fin NBUF)
  | brelse (i : ι) (k : Fin NBUF)
  | end_op (i : ι)
  | acquiresleep (i : ι)
  | drop (i : ι)
  | go (i : ι) (k : Fin NBUF)

def root (b : Nat) : Addr := (ROOTDEV, b)

def Home (start size b : Nat) : Prop := b < start ∨ start + size ≤ b

instance (start size b : Nat) : Decidable (Home start size b) := inferInstanceAs (Decidable (_ ∨ _))

def Writable (log : Log) (a : Addr) : Prop := a.1 = ROOTDEV ∧ Home log.start log.size a.2 ∧ a.2 ≠ 1

instance (log : Log) (a : Addr) : Decidable (Writable log a) := inferInstanceAs (Decidable (_ ∧ _ ∧ _))

variable {ι : Type} [DecidableEq ι]

def State.goto (s : State ι) (i : ι) (pc : Pc) : State ι := { s with pc := Function.update s.pc i pc }

/-- `bread(ROOTDEV, b)` up to the wait for the lock; then goes on at `pc`. -/
def bread (s : State ι) (i : ι) (b : Nat) (k : Fin NBUF) (pc : Pc) : Option (State ι) :=
  (s.cache.bget i (root b) k).map fun cache => { s with cache := cache }.goto i pc

def brelse (s : State ι) (i : ι) (k : Fin NBUF) (pc : Pc) : Option (State ι) :=
  (s.cache.releasesleep i k).map fun cache => { s with cache := cache }.goto i pc

def bwrite (s : State ι) (i : ι) (k : Fin NBUF) (data : Block) (pc : Pc) : Option (State ι) :=
  (s.cache.bwrite s.disk i k data).map fun out => { s with disk := out.1, cache := out.2 }.goto i pc

/-- The last `end_op` closes the commit group. -/
def History.close (past : History ι) : History ι :=
  { past with groups := past.groups ++ [past.current], current := [] }

def History.restart (past : History ι) (disk : Addr → Block) : History ι :=
  { past with
    init := fun b => disk (root b), groups := [], current := [], durable := 0, returned := 0, ended := [] }

/-- The next step of a process inside of a function of `log.c`. -/
def go (s : State ι) (i : ι) (k : Fin NBUF) : Pc → Option (State ι)
  | .user | .op => none
  | .begin =>
    if s.log.beginWaits then none
    else some ({ s with
      log := s.log.enter
      past := { s.past with op := Function.update s.past.op i s.past.nextOp, nextOp := s.past.nextOp + 1 } }.goto
        i .op)
  | .logging k =>
    some ({ s with log := s.log.record (s.cache.buf k).addr.2, cache := s.cache.pin k }.goto i .op)
  | .commit =>
    if 0 < s.log.n then some (s.goto i (.loop .write_log 0))
    else some ({ s with past := { s.past with
      returned := s.past.returned + 1, durable := s.past.durable + 1 } }.goto i .finish)
  | .finish => some ({ s with log := { s.log with committing := false } }.goto i .user)
  | .loop which tail =>
    if tail < s.log.n then bread s i (s.log.start + tail + 1) k (.second which tail k)
    else
      match which with
      | .write_log => some (s.goto i (.head false))
      | .install_trans => some ({ s with log := { s.log with block := [] } }.goto i (.head true))
  | .second which tail log =>
    match s.log.block[tail]? with
    | some b => bread s i b k (.copy which tail log k)
    | none => none
  | .copy .write_log tail log home =>
    bwrite s i log (s.cache.buf home).data (.release .write_log tail log home)
  | .copy .install_trans tail log home =>
    bwrite s i home (s.cache.buf log).data (.release .install_trans tail log home)
  | .release .write_log tail log home => brelse s i home (.releaseLast .write_log tail log)
  | .release .install_trans tail log home => brelse s i log (.releaseLast .install_trans tail home)
  | .releaseLast which tail k => brelse s i k (.loop which (tail + 1))
  | .head clear => bread s i s.log.start k (.writeHead clear k)
  | .writeHead clear k =>
    (bwrite s i k (putHead (s.cache.buf k).data s.log.block) (.releaseHead clear k)).map fun t =>
      -- the transaction commits here
      if clear then t else { t with past := { t.past with durable := t.past.durable + 1 } }
  | .releaseHead clear k => brelse s i k (if clear then .returned else .loop .install_trans 0)
  | .returned =>
    if s.phase = .booting then
      some ({ s with phase := .on, past := s.past.restart s.disk }.goto i .user)
    else some ({ s with past := { s.past with returned := s.past.returned + 1 } }.goto i .finish)
  | .readsb k =>
    (brelse s i k .readHead).map fun t =>
      { t with log := { t.log with
        start := sbLogstart (s.cache.buf k).data, size := sbNlog (s.cache.buf k).data } }
  | .readHead => bread s i s.log.start k (.gotHead k)
  | .gotHead k =>
    (brelse s i k (.loop .install_trans 0)).map fun t =>
      { t with log := { t.log with block := headBlocks (s.cache.buf k).data } }

def step (s : State ι) : Label ι → Option (State ι)
  | .crash =>
    some { s with
      cache := .zero
      log := { start := 0, size := 0, outstanding := 0, committing := false, block := [] }
      phase := .off
      pc := fun _ => .user }
  | .initlog i k =>
    if s.phase = .off then (bread s i 1 k (.readsb k)).map fun t => { t with phase := .booting } else none
  | .begin_op i =>
    if s.phase = .on ∧ s.pc i = .user ∧ s.cache.call i = .idle then some (s.goto i .begin) else none
  | .bread i b k =>
    if s.phase = .on ∧ (s.pc i = .user ∨ s.pc i = .op) ∧ Home s.log.start s.log.size b then bread s i b k (s.pc i) else none
  | .modify i k data =>
    if s.pc i = .op ∧ s.cache.call i = .idle ∧ (s.cache.buf k).owner = some i ∧
        Writable s.log (s.cache.buf k).addr then
      some { s with
        cache := s.cache.modify k data
        past := { s.past with
          current := s.past.current ++ [⟨s.past.op i, (s.cache.buf k).addr.2, data⟩] } }
    else none
  | .log_write i k =>
    if s.pc i = .op ∧ s.cache.call i = .idle ∧ (s.cache.buf k).owner = some i ∧
        Writable s.log (s.cache.buf k).addr ∧ s.log.tooBig = false ∧ 1 ≤ s.log.outstanding then
      some (s.goto i (.logging k))
    else none
  | .brelse i k =>
    if s.phase = .on ∧ (s.pc i = .user ∨ s.pc i = .op) ∧ (s.cache.buf k).changed = false then
      brelse s i k (s.pc i)
    else none
  | .end_op i =>
    if s.pc i = .op ∧ s.cache.call i = .idle ∧ s.log.committing = false ∧
        ∀ k, (s.cache.buf k).owner = some i → (s.cache.buf k).changed = false then
      let past := { s.past with ended := s.past.op i :: s.past.ended }
      if s.log.leave.outstanding = 0 then
        some ({ s with log := { s.log.leave with committing := true }, past := past.close }.goto i .commit)
      else some ({ s with log := s.log.leave, past := past }.goto i .user)
    else none
  | .acquiresleep i =>
    (s.cache.acquiresleep s.disk i).map fun out => { s with disk := out.1, cache := out.2 }
  | .drop i => (s.cache.drop i).map fun cache => { s with cache := cache }
  | .go i k => if s.cache.call i = .idle then go s i k (s.pc i) else none

end Xv6.Log.Machine
