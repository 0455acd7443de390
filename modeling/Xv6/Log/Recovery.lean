import Xv6.Bio.Coherence
import Xv6.Log.Control

/-! What the disk would be recovered to. The header and the blocks behind it are a redo log
over the home blocks, and at every moment redoing it gives the contents after the durable
commit groups. `Stage` says, for each point of `commit` and `initlog`, how far the disk has come. -/

namespace Xv6.Log.Machine
open Lib Lib.RedoLog

variable {ι : Type} (start size : Nat)

def History.now (past : History ι) : Nat → Block :=
  apply ((past.groups.flatten ++ past.current).map Update.write) past.init

def History.safe (past : History ι) : Nat → Block :=
  apply ((past.groups.take past.durable).flatten.map Update.write) past.init

def State.block (s : State ι) (b : Nat) : Block := s.disk (root b)

/-- The header on the disk, and the log block of its entry `t`. -/
def heads (s : State ι) : List Nat := headBlocks (s.block start)

def saved (s : State ι) (t : Nat) : Block := s.block (start + t + 1)

def view (s : State ι) : Addr → Block := fun a =>
  if s.phase = .on ∧ a.1 = ROOTDEV ∧ Home start size a.2 then s.past.now a.2 else s.disk a

structure Geometry : Prop where
  low : 2 ≤ start
  room : start + size ≤ FSSIZE
  enough : LOGSIZE ≤ size

variable {start size} in
theorem Geometry.nbuf_le (geo : Geometry start size) : NBUF ≤ size := geo.enough

structure Loggable (b : Nat) : Prop where
  home : Home start size b
  super : b ≠ 1
  range : b < FSSIZE

structure Heads (blocks : List Nat) : Prop where
  distinct : blocks.Nodup
  loggable : ∀ b ∈ blocks, Loggable start size b

def Located (s : State ι) : Prop := s.log.start = start ∧ s.log.size = size

/-- The group that is being committed is closed and not durable. -/
structure Before (s : State ι) : Prop where
  heads : heads start s = []
  durable : s.past.durable = s.past.returned
  groups : s.past.groups.length = s.past.returned + 1
  current : s.past.current = []

/-- The group that is being committed is durable; in a recovery there is none. -/
def Counted (s : State ι) : Prop :=
  s.phase = .on → s.past.durable = s.past.groups.length ∧ s.past.groups.length = s.past.returned + 1 ∧
    s.past.current = []

def Logged (s : State ι) (tail : Nat) : Prop :=
  ∀ t (bound : t < s.log.block.length), t < tail → saved start s t = s.past.now s.log.block[t]

def Installed (s : State ι) (tail : Nat) : Prop :=
  ∀ t (bound : t < (heads start s).length), t < tail → s.block (heads start s)[t] = saved start s t

/-- What is known at a point of the code. -/
def Stage (s : State ι) (i : ι) : Pc → Prop
  | .user | .begin | .op => True
  | .logging k => ∃ a, s.cache.Has i k a ∧ a.1 = ROOTDEV ∧ Home start size a.2 ∧ a.2 ≠ 1
  | .commit => Before start s
  | .loop .write_log tail =>
    Before start s ∧ Logged start s tail ∧ (tail = 0 → 0 < s.log.n) ∧ (0 < tail → s.log.n < NBUF)
  | .second .write_log tail l =>
    Before start s ∧ Logged start s tail ∧ s.log.n < NBUF ∧ s.cache.Has i l (root (start + tail + 1))
  | .copy .write_log tail l d =>
    Before start s ∧ Logged start s tail ∧ s.log.n < NBUF ∧ s.cache.Has i l (root (start + tail + 1)) ∧
      ∃ b, s.log.block[tail]? = some b ∧ s.cache.Has i d (root b)
  | .release .write_log tail _ _ | .releaseLast .write_log tail _ =>
    Before start s ∧ Logged start s (tail + 1) ∧ s.log.n < NBUF
  | .head false => Before start s ∧ Logged start s s.log.n ∧ s.log.n < NBUF
  | .writeHead false h => Before start s ∧ Logged start s s.log.n ∧ s.log.n < NBUF ∧ s.cache.Has i h (root start)
  | .releaseHead false _ => heads start s = s.log.block ∧ Counted s
  | .loop .install_trans tail => heads start s = s.log.block ∧ Counted s ∧ Installed start s tail
  | .second .install_trans tail l =>
    heads start s = s.log.block ∧ Counted s ∧ Installed start s tail ∧ s.cache.Has i l (root (start + tail + 1))
  | .copy .install_trans tail l d =>
    heads start s = s.log.block ∧ Counted s ∧ Installed start s tail ∧
      s.cache.Has i l (root (start + tail + 1)) ∧ ∃ b, s.log.block[tail]? = some b ∧ s.cache.Has i d (root b)
  | .release .install_trans tail _ _ | .releaseLast .install_trans tail _ =>
    heads start s = s.log.block ∧ Counted s ∧ Installed start s (tail + 1)
  | .head true => s.log.block = [] ∧ Counted s ∧ Installed start s (heads start s).length
  | .writeHead true h =>
    s.log.block = [] ∧ Counted s ∧ Installed start s (heads start s).length ∧ s.cache.Has i h (root start)
  | .releaseHead true _ | .returned => s.log.block = [] ∧ Counted s ∧ heads start s = []
  | .finish =>
    s.log.block = [] ∧ heads start s = [] ∧ s.past.durable = s.past.returned ∧
      s.past.groups.length = s.past.returned ∧ s.past.current = []
  | .readsb k => s.cache.Has i k (root 1)
  | .readHead => True
  | .gotHead h => s.cache.Has i h (root start)

/-- The header is written, and home blocks may differ from the cache. -/
def Pc.after : Pc → Bool
  | .releaseHead false _ | .loop .install_trans _ | .second .install_trans _ _ | .copy .install_trans _ _ _
  | .release .install_trans _ _ _ | .releaseLast .install_trans _ _ | .head true | .writeHead true _ => true
  | _ => false

def Pc.located : Pc → Bool
  | .readsb _ => false
  | pc => pc.busy

structure Inv [Fintype ι] (s : State ι) : Prop where
  ctl : Ctl s
  located : ∀ i, s.phase = .on ∨ (s.pc i).located = true → Located start size s
  super : sbLogstart (s.block 1) = start ∧ sbNlog (s.block 1) = size
  coherent : s.cache.Coherent s.disk (view start size s)
  waits : ∀ i k, s.cache.call i = .waiting k → (s.cache.buf k).addr.1 = ROOTDEV
  changed : ∀ k, (s.cache.buf k).changed = true → ∃ i, (s.cache.buf k).owner = some i ∧ (s.pc i).inside = true
  logged : Heads start size s.log.block
  headed : Heads start size (heads start s)
  fits : (heads start s).length < size
  safe : ∀ b, Home start size b → redo (heads start s) (saved start s) s.block b = s.past.safe b
  counts : s.past.returned ≤ s.past.durable ∧ s.past.durable ≤ s.past.returned + 1 ∧
    s.past.durable ≤ s.past.groups.length
  idle : s.phase = .on → s.log.committing = false → heads start s = [] ∧ s.past.durable = s.past.returned ∧
    s.past.groups.length = s.past.returned
  covered : s.phase = .on → (∀ i, (s.pc i).after = false) → ∀ b, Home start size b → s.past.now b = s.block b ∨
    b ∈ s.log.block ∨ ∃ k, (s.cache.buf k).addr = root b ∧ (s.cache.buf k).changed = true
  pinned : s.phase = .on → (∀ i, (s.pc i).after = false) → ∀ b ∈ s.log.block,
    ∃ k, (s.cache.buf k).addr = root b ∧ (s.cache.buf k).dirty = true
  stage : ∀ i, Stage start size s i (s.pc i)

variable {b : Nat} {pc : Pc}

section Facts
variable {start size} {s t : State ι}

theorem root_injective : Function.Injective root := fun _ _ same => congrArg Prod.snd same

theorem root_ne {c : Nat} (apart : b ≠ c) : root b ≠ root c := fun same => apart (root_injective same)

/-- The same record up to the numbers of operations. -/
structure History.Same (p q : History ι) : Prop where
  init : p.init = q.init
  groups : p.groups = q.groups
  current : p.current = q.current
  durable : p.durable = q.durable
  returned : p.returned = q.returned

theorem History.Same.refl (p : History ι) : p.Same p := ⟨rfl, rfl, rfl, rfl, rfl⟩

theorem History.Same.now_eq {p q : History ι} (same : p.Same q) : p.now = q.now := by
  rw [History.now, History.now, same.init, same.groups, same.current]

theorem History.Same.safe_eq {p q : History ι} (same : p.Same q) : p.safe = q.safe := by
  rw [History.safe, History.safe, same.init, same.groups, same.durable]

theorem History.safe_eq_now {past : History ι} (durable : past.durable = past.groups.length)
    (current : past.current = []) : past.safe = past.now := by
  rw [History.safe, History.now, durable, current, List.take_length, List.append_nil]

theorem view_home (on : s.phase = .on) (home : Home start size b) :
    view start size s (root b) = s.past.now b :=
  if_pos ⟨on, rfl, home⟩

theorem view_log (inside : ¬Home start size b) : view start size s (root b) = s.block b :=
  if_neg fun all => inside all.2.2

theorem view_down (off : s.phase ≠ .on) : view start size s = s.disk := by
  funext a
  exact if_neg fun all => off all.1

theorem view_congr (disk : t.disk = s.disk) (phase : t.phase = .on ↔ s.phase = .on) (now : t.past.now = s.past.now) :
    view start size t = view start size s := by
  funext a
  simp only [view, disk, phase, now]

theorem blocks_of_disk (disk : t.disk = s.disk) : t.block = s.block := by
  funext b
  rw [State.block, State.block, disk]

theorem heads_congr (here : t.block start = s.block start) : heads start t = heads start s := by
  rw [heads, heads, here]

theorem heads_of_disk (disk : t.disk = s.disk) : heads start t = heads start s :=
  heads_congr (congrFun (blocks_of_disk disk) start)

theorem saved_of_disk (disk : t.disk = s.disk) : saved start t = saved start s := by
  funext u
  rw [saved, saved, blocks_of_disk disk]

structure SameData (t s : State ι) : Prop where
  disk : t.disk = s.disk
  block : t.log.block = s.log.block
  phase : t.phase = .on ↔ s.phase = .on
  past : t.past.Same s.past

section SameData
variable (same : SameData t s)
include same

theorem SameData.blocks : t.block = s.block := blocks_of_disk same.disk

theorem SameData.heads : heads start t = heads start s := heads_of_disk same.disk

theorem SameData.saved : saved start t = saved start s := saved_of_disk same.disk

theorem SameData.n : t.log.n = s.log.n := by rw [Log.n, Log.n, same.block]

theorem Before.congr (old : Before start s) : Before start t :=
  ⟨same.heads.trans old.heads, by rw [same.past.durable, same.past.returned, old.durable],
    by rw [same.past.groups, same.past.returned, old.groups], by rw [same.past.current, old.current]⟩

theorem Counted.congr (old : Counted s) : Counted t := fun on => by
  rw [same.past.durable, same.past.groups, same.past.returned, same.past.current]
  exact old (same.phase.mp on)

theorem Logged.congr {tail : Nat} (old : Logged start s tail) : Logged start t tail := fun u bound low => by
  simp only [same.saved, same.past.now_eq, same.block] at bound ⊢
  exact old u bound low

theorem Installed.congr {tail : Nat} (old : Installed start s tail) : Installed start t tail := fun u bound low => by
  simp only [same.saved, same.blocks, same.heads] at bound ⊢
  exact old u bound low

theorem SameData.headed (old : Machine.heads start s = s.log.block) : Machine.heads start t = t.log.block := by
  rw [same.heads, same.block, old]

end SameData

theorem Stage.calm {i : ι} (stage : Stage start size s i pc) (calm : pc.role ≠ .busy)
    (has : ∀ k a, s.cache.Has i k a → t.cache.Has i k a) : Stage start size t i pc := by
  cases pc with
  | user | «begin» | op => trivial
  | logging k => exact stage.imp fun a here => ⟨has k a here.1, here.2⟩
  | _ => exact absurd rfl calm

theorem Stage.congr {i : ι} (stage : Stage start size s i pc) (same : SameData t s)
    (has : ∀ k a, s.cache.Has i k a → t.cache.Has i k a) : Stage start size t i pc := by
  have block := same.block
  have head : heads start t = heads start s := same.heads
  have number := same.n
  cases pc with
  | user | «begin» | op | readHead => trivial
  | logging k => exact stage.imp fun a here => ⟨has k a here.1, here.2⟩
  | commit => exact Before.congr same stage
  | finish =>
    obtain ⟨empty, clear, durable, groups, current⟩ := stage
    exact ⟨block.trans empty, head.trans clear, by rw [same.past.durable, same.past.returned, durable],
      by rw [same.past.groups, same.past.returned, groups], by rw [same.past.current, current]⟩
  | loop which tail =>
    cases which with
    | write_log =>
      obtain ⟨b, l, positive, fits⟩ := stage
      exact ⟨b.congr same, l.congr same, number ▸ positive, number ▸ fits⟩
    | install_trans =>
      obtain ⟨h, c, i⟩ := stage
      exact ⟨same.headed h, c.congr same, i.congr same⟩
  | second which tail k =>
    cases which with
    | write_log =>
      obtain ⟨b, l, fits, mine⟩ := stage
      exact ⟨b.congr same, l.congr same, number ▸ fits, has _ _ mine⟩
    | install_trans =>
      obtain ⟨h, c, i, mine⟩ := stage
      exact ⟨same.headed h, c.congr same, i.congr same, has _ _ mine⟩
  | copy which tail k d =>
    cases which with
    | write_log =>
      obtain ⟨b, l, fits, mine, dst, entry, other⟩ := stage
      exact ⟨b.congr same, l.congr same, number ▸ fits, has _ _ mine, dst, block ▸ entry, has _ _ other⟩
    | install_trans =>
      obtain ⟨h, c, i, mine, dst, entry, other⟩ := stage
      exact ⟨same.headed h, c.congr same, i.congr same, has _ _ mine, dst, block ▸ entry, has _ _ other⟩
  | release which tail k d =>
    cases which with
    | write_log =>
      obtain ⟨b, l, fits⟩ := stage
      exact ⟨b.congr same, l.congr same, number ▸ fits⟩
    | install_trans =>
      obtain ⟨h, c, i⟩ := stage
      exact ⟨same.headed h, c.congr same, i.congr same⟩
  | releaseLast which tail k =>
    cases which with
    | write_log =>
      obtain ⟨b, l, fits⟩ := stage
      exact ⟨b.congr same, l.congr same, number ▸ fits⟩
    | install_trans =>
      obtain ⟨h, c, i⟩ := stage
      exact ⟨same.headed h, c.congr same, i.congr same⟩
  | head clear =>
    cases clear with
    | false =>
      obtain ⟨b, l, fits⟩ := stage
      exact ⟨b.congr same, number ▸ l.congr same, number ▸ fits⟩
    | true =>
      obtain ⟨empty, c, i⟩ := stage
      exact ⟨block.trans empty, c.congr same, head ▸ i.congr same⟩
  | writeHead clear k =>
    cases clear with
    | false =>
      obtain ⟨b, l, fits, mine⟩ := stage
      exact ⟨b.congr same, number ▸ l.congr same, number ▸ fits, has _ _ mine⟩
    | true =>
      obtain ⟨empty, c, i, mine⟩ := stage
      exact ⟨block.trans empty, c.congr same, head ▸ i.congr same, has _ _ mine⟩
  | releaseHead clear k =>
    cases clear with
    | false => exact ⟨same.headed stage.1, stage.2.congr same⟩
    | true => exact ⟨block.trans stage.1, stage.2.1.congr same, head.trans stage.2.2⟩
  | returned => exact ⟨block.trans stage.1, stage.2.1.congr same, head.trans stage.2.2⟩
  | readsb k => exact has _ _ stage
  | gotHead k => exact has _ _ stage

end Facts

section Steady
variable {start size} [Fintype ι] {s t : State ι} {i : ι}

theorem Inv.steady (inv : Inv start size s) (i : ι) (ctl : Ctl t) (others : ∀ j, j ≠ i → t.pc j = s.pc j)
    (same : SameData t s) (place : t.log.start = s.log.start ∧ t.log.size = s.log.size)
    (coherent : t.cache.Coherent s.disk (view start size s)) (steady : s.cache.Steady t.cache)
    (has : ∀ j k a, j ≠ i → s.cache.Has j k a → t.cache.Has j k a)
    (waits : ∀ j k, t.cache.call j = .waiting k → (t.cache.buf k).addr.1 = ROOTDEV)
    (inside : (s.pc i).inside = true → (t.pc i).inside = true ∨
      ∀ k, (s.cache.buf k).owner = some i → (s.cache.buf k).changed = false)
    (after : s.phase = .on → (t.pc i).after = (s.pc i).after)
    (located : (t.pc i).located = true → Located start size s)
    (idle : t.log.committing = false → s.log.committing = false ∨ (heads start s = [] ∧
      s.past.durable = s.past.returned ∧ s.past.groups.length = s.past.returned))
    (stage : Stage start size t i (t.pc i)) : Inv start size t := by
  have blocks := same.blocks
  have head : heads start t = heads start s := same.heads
  have save : saved start t = saved start s := same.saved
  obtain ⟨disk, block, phase, past⟩ := same
  have afters : s.phase = .on → (∀ j, (t.pc j).after = false) → ∀ j, (s.pc j).after = false := fun on all j => by
    rcases eq_or_ne j i with rfl | apart
    · rw [← after on]
      exact all j
    · rw [← others j apart]
      exact all j
  constructor
  · exact ctl
  · intro j either
    have old : Located start size s := by
      rcases either with on | there
      · exact inv.located j (.inl (phase.mp on))
      · rcases eq_or_ne j i with rfl | apart
        · exact located there
        · exact inv.located j (.inr (others j apart ▸ there))
    exact ⟨place.1.trans old.1, place.2.trans old.2⟩
  · rw [blocks]
    exact inv.super
  · rw [disk, view_congr disk phase past.now_eq]
    exact coherent
  · exact waits
  · intro k change
    have old := steady.old k change
    obtain ⟨-, -, owner⟩ := steady.changed k old
    obtain ⟨j, own, here⟩ := inv.changed k old
    refine ⟨j, owner.trans own, ?_⟩
    rcases eq_or_ne j i with rfl | apart
    · refine (inside here).resolve_right fun none => ?_
      rw [none k own] at old
      cases old
    · rw [others j apart]
      exact here
  · rw [block]
    exact inv.logged
  · rw [head]
    exact inv.headed
  · rw [head]
    exact inv.fits
  · rw [head, save, blocks, past.safe_eq]
    exact inv.safe
  · rw [past.durable, past.returned, past.groups]
    exact inv.counts
  · intro on calm
    rw [head, past.durable, past.returned, past.groups]
    rcases idle calm with old | done
    · exact inv.idle (phase.mp on) old
    · exact done
  · intro on none b home
    rw [past.now_eq, blocks, block]
    refine (inv.covered (phase.mp on) (afters (phase.mp on) none) b home).imp_right (Or.imp_right fun ⟨k, addr, change⟩ => ⟨k, ?_⟩)
    obtain ⟨still, same, -⟩ := steady.changed k change
    exact ⟨same.trans addr, still⟩
  · intro on none b member
    obtain ⟨k, addr, dirty⟩ := inv.pinned (phase.mp on) (afters (phase.mp on) none) b (block ▸ member)
    obtain ⟨still, same⟩ := steady.dirty k dirty
    exact ⟨k, same.trans addr, still⟩
  · intro j
    rcases eq_or_ne j i with rfl | apart
    · exact stage
    · rw [others j apart]
      exact (inv.stage j).congr ⟨disk, block, phase, past⟩ fun k a mine => has j k a apart mine

variable [DecidableEq ι] {k : Fin NBUF} {pc : Pc}

variable {cache : Cache ι Block}

omit [DecidableEq ι] in
theorem Inv.waits_of_has (inv : Inv start size s)
    (call : ∀ j, j ≠ i → cache.call j = s.cache.call j)
    (has : ∀ j l a, j ≠ i → s.cache.Has j l a → cache.Has j l a)
    (mine : ∀ l, cache.call i = .waiting l → (cache.buf l).addr.1 = ROOTDEV) (j : ι) (l : Fin NBUF)
    (waits : cache.call j = .waiting l) : (cache.buf l).addr.1 = ROOTDEV := by
  rcases eq_or_ne j i with rfl | apart
  · exact mine l waits
  · rw [call j apart] at waits
    have still := has j l _ apart ⟨rfl, .inr waits⟩
    rw [still.1]
    exact inv.waits j l waits

theorem Inv.waits_bget (inv : Inv start size s)
    (got : s.cache.bget i (root b) k = some cache) (j : ι) (l : Fin NBUF) (waits : cache.call j = .waiting l) :
    (cache.buf l).addr.1 = ROOTDEV := by
  obtain ⟨mine, others⟩ := Cache.bget_call got
  refine inv.waits_of_has others (fun j l a _ has => inv.coherent.has_bget has got) (fun l here => ?_) j l waits
  rw [mine] at here
  cases here
  rw [(Cache.bget_has got).1]
  rfl

variable {before : Pc}

theorem Inv.bread (inv : Inv start size s) (here : s.pc i = before) (taken : bread s i b k pc = some t)
    (ctl : Ctl t) (inside : pc.inside = before.inside) (after : s.phase = .on → pc.after = before.after)
    (located : pc.located = true → Located start size s)
    (stage : SameData t s → t.log = s.log → t.cache.Has i k (root b) →
      (∀ l a, s.cache.Has i l a → t.cache.Has i l a) → Stage start size t i pc) : Inv start size t := by
  subst here
  obtain ⟨cache, got, rfl⟩ := bread_eq taken
  have has : ∀ j l a, s.cache.Has j l a → cache.Has j l a := fun j l a mine => inv.coherent.has_bget mine got
  have gained := Cache.bget_has got
  have same : SameData ({ s with cache := cache }.goto i pc) s := ⟨rfl, rfl, .rfl, .refl _⟩
  refine inv.steady i ctl (fun j apart => goto_pc_of_ne apart) same ⟨rfl, rfl⟩ (inv.coherent.bget got)
    (inv.coherent.steady_bget got) (fun j l a _ mine => has j l a mine)
    (inv.waits_bget got) (fun here => .inl ?_) ?_ ?_ (fun calm => .inl calm) ?_
  · rw [goto_pc_self, inside, here]
  · rw [goto_pc_self]
    exact after
  · rw [goto_pc_self]
    exact located
  · rw [goto_pc_self]
    exact stage same rfl gained (has i)

theorem Inv.brelse (inv : Inv start size s) (here : s.pc i = before) (taken : brelse s i k pc = some t)
    (ctl : Ctl t) (unchanged : (s.cache.buf k).changed = false) (inside : pc.inside = before.inside)
    (after : s.phase = .on → pc.after = before.after)
    (located : pc.located = true → Located start size s)
    (stage : SameData t s → t.log = s.log → Stage start size t i pc) : Inv start size t := by
  subst here
  obtain ⟨cache, got, rfl⟩ := brelse_eq taken
  have has : ∀ j l a, j ≠ i → s.cache.Has j l a → cache.Has j l a := fun j l a apart mine =>
    Cache.has_releasesleep mine (fun same => absurd same apart) got
  have call : cache.call i = .dropping k ∧ ∀ j, j ≠ i → cache.call j = s.cache.call j := by
    obtain ⟨-, -, rfl⟩ := Cache.releasesleep_eq got
    exact ⟨Cache.goto_call_self _ _ _, fun j apart => Cache.goto_call_of_ne _ _ apart⟩
  have mine : ∀ l, cache.call i = .waiting l → (cache.buf l).addr.1 = ROOTDEV := fun l waits => by
    rw [call.1] at waits
    cases waits
  have same : SameData ({ s with cache := cache }.goto i pc) s := ⟨rfl, rfl, .rfl, .refl _⟩
  refine inv.steady i ctl (fun j apart => goto_pc_of_ne apart) same ⟨rfl, rfl⟩
    (inv.coherent.releasesleep unchanged got) (Cache.steady_releasesleep unchanged got) has
    (inv.waits_of_has call.2 has mine) (fun here => .inl ?_) ?_ ?_ (fun calm => .inl calm) ?_
  · rw [goto_pc_self, inside, here]
  · rw [goto_pc_self]
    exact after
  · rw [goto_pc_self]
    exact located
  · rw [goto_pc_self]
    exact stage same rfl

omit [DecidableEq ι] in
theorem Inv.finishCall (inv : Inv start size s) (i : ι)
    (ctl : Ctl { s with cache := cache }) (coherent : cache.Coherent s.disk (view start size s))
    (steady : s.cache.Steady cache) (has : ∀ j l a, s.cache.Has j l a → cache.Has j l a)
    (idle : cache.call i = .idle) (call : ∀ j, j ≠ i → cache.call j = s.cache.call j) :
    Inv start size { s with cache := cache } := by
  have same : SameData { s with cache := cache } s := ⟨rfl, rfl, .rfl, .refl _⟩
  refine inv.steady i ctl (fun j _ => rfl) same ⟨rfl, rfl⟩ coherent steady (fun j l a _ mine => has j l a mine)
    (inv.waits_of_has call (fun j l a _ => has j l a) fun l waits => ?_) (fun here => .inl here) (fun _ => rfl)
    (fun known => inv.located i (.inr known)) (fun calm => .inl calm) ((inv.stage i).congr same (has i))
  rw [idle] at waits
  cases waits

theorem Inv.goto (inv : Inv start size s) (here : s.pc i = before) (ctl : Ctl t) (pcs : t.pc = Function.update s.pc i pc)
    (cache : t.cache = s.cache) (same : SameData t s) (place : t.log.start = s.log.start ∧ t.log.size = s.log.size)
    (inside : before.inside = true → pc.inside = true ∨
      ∀ k, (s.cache.buf k).owner = some i → (s.cache.buf k).changed = false)
    (after : s.phase = .on → pc.after = before.after) (located : pc.located = true → Located start size s)
    (idle : t.log.committing = false → s.log.committing = false ∨ (heads start s = [] ∧
      s.past.durable = s.past.returned ∧ s.past.groups.length = s.past.returned))
    (stage : Stage start size t i pc) : Inv start size t := by
  subst here
  have here : t.pc i = pc := by rw [pcs, Function.update_self]
  refine inv.steady i ctl (fun j apart => by rw [pcs, Function.update_of_ne apart]) same place
    (cache ▸ inv.coherent) (by rw [cache]; exact ⟨fun _ dirty => ⟨dirty, rfl⟩, fun _ change => ⟨change, rfl, rfl⟩,
      fun _ change => change⟩) (fun j l a _ mine => cache ▸ mine) (cache ▸ inv.waits) (by rw [here]; exact inside)
    (by rw [here]; exact after) (by rw [here]; exact located) idle (by rw [here]; exact stage)

end Steady

end Xv6.Log.Machine
