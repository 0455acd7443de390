import Xv6.Fs.Machine

/-! What holds of the books of the file system after every call. -/

namespace Xv6.Fs
open Lib Nat Transition Finset

variable {image : Image} {tty peer : List (Option (List UInt8))} {s t : State} {calls : List (Fin NPROC × Call)}
  {p : Fin NPROC} {call : Call}

/-- The write takes a block, and to leave `/a/b` frees the one it had. -/
def someCalls : List (Fin NPROC × Call) :=
  [(initproc, .chdir pathAB), (initproc, .unlink pathAB), (initproc, .open pathF O_RDWR), (initproc, .write 0 [1, 2, 3]),
    (initproc, .chdir pathRoot), (initproc, .dup 0), (initproc, .pipe (some 3))]

theorem someCalls_return : ∃ s, run step (smallImage.boot [] []) someCalls = some s :=
  Option.isSome_iff_exists.mp (by decide +kernel)

def Dinode.Allocated (d : Dinode) : Prop := d.type ≠ 0

/-- The slot `i` of the allocated inode `x` has the block `b`. -/
def State.Owns (s : State) (x i b : Nat) : Prop :=
  x < s.sb.ninodes ∧ (s.dinode x).Allocated ∧ i < NSLOT ∧ slot s.disk (s.dinode x) i = b

/-- Every block is free, or metadata, or has one owner, and the bitmap says so. -/
structure BlockOwnership (s : State) : Prop where
  bitmap : ∀ b < s.sb.size, inUse s.sb s.disk b = true ↔ b < s.sb.datastart ∨ ∃ x i, s.Owns x i b
  one : ∀ b x i y j, b ≠ 0 → s.Owns x i b → s.Owns y j b → x = y ∧ i = j
  data : ∀ b x i, b ≠ 0 → s.Owns x i b → s.sb.datastart ≤ b ∧ b < s.sb.size
  mapped : ∀ x < s.sb.ninodes, (s.dinode x).Allocated → (s.dinode x).type ≠ T_DEV →
    (s.dinode x).size ≤ MAXFILE * BSIZE ∧
    (∀ bn < MAXFILE, blockOf s.disk (s.dinode x) bn ≠ 0 ↔ bn < ((s.dinode x).size + BSIZE - 1) / BSIZE) ∧
    ((s.dinode x).addr NDIRECT ≠ 0 ↔ NDIRECT < ((s.dinode x).size + BSIZE - 1) / BSIZE)
  free : ∀ x < s.sb.ninodes, ¬ (s.dinode x).Allocated → ∀ i < NSLOT, slot s.disk (s.dinode x) i = 0

theorem slot_of_free {disk : Nat → Block} {d : Dinode} (free : ∀ i ≤ NDIRECT, d.addr i = 0) (i : Nat) : slot disk d i = 0 := by
  unfold slot
  split
  next direct => exact free i (le_of_lt_succ direct)
  next => rw [if_pos (free NDIRECT (le_refl _))]

theorem mul_lt_iff_lt_ceil (bn size : Nat) : bn * BSIZE < size ↔ bn < (size + BSIZE - 1) / BSIZE := by
  unfold BSIZE
  omega

theorem BlocksInv.ownership (inv : BlocksInv s.sb s.disk s.dinode) : BlockOwnership s where
  bitmap := by
    intro b inside
    rw [inv.owned.used b inside]
    constructor
    · rintro (meta_ | none | ⟨x, inside', i, bound, here⟩)
      · exact .inl meta_
      · exact none.elim
      · by_cases free : (s.dinode x).type = 0
        · rw [slot_of_free (inv.free x inside' free)] at here
          exact .inl (here ▸ Superblock.datastart_pos)
        · exact .inr ⟨x, i, inside', free, bound, here⟩
    · rintro (meta_ | ⟨x, i, inside', -, bound, here⟩)
      · exact .inl meta_
      · exact .inr (.inr ⟨x, inside', i, bound, here⟩)
  one := by
    rintro b x i y j nonzero ⟨insideX, -, boundI, hereI⟩ ⟨insideY, -, boundJ, hereJ⟩
    exact inv.owned.apart x insideX i boundI y insideY j boundJ (by rw [hereI]; exact nonzero) (hereI.trans hereJ.symm)
  data := by
    rintro b x i nonzero ⟨inside, -, bound, here⟩
    have area := inv.owned.area x inside i bound
    rw [here] at area
    exact area nonzero
  mapped := by
    intro x inside allocated notDev
    have mapped := inv.mapped x inside allocated notDev
    exact ⟨mapped.fits, fun bn bound => (mapped.blocks bn bound).trans (mul_lt_iff_lt_ceil ..),
      mapped.indirect.trans (mul_lt_iff_lt_ceil ..)⟩
  free := fun x inside free i _ => slot_of_free (inv.free x inside (not_not.mp free)) i

/-- The entry `k` shows a file or directory as it is on the disk. -/
structure State.Loaded (s : State) (k : Fin NINODE) : Prop where
  inside : (s.icache k).inum < s.sb.ninodes
  same : (s.icache k).toDinode = s.dinode (s.icache k).inum
  allocated : (s.icache k).type ≠ 0
  notDev : (s.icache k).type ≠ T_DEV

theorem BlockOwnership.wp_readi (owned : BlockOwnership s) {k : Fin NINODE} (loaded : s.Loaded k) (off n : Nat) :
    wp (readi k off n) (fun _ t => t = s) (fun _ => False) s := by
  obtain ⟨fits, blocks, indirect⟩ := owned.mapped _ loaded.inside (loaded.same ▸ loaded.allocated)
    (loaded.same ▸ loaded.notDev)
  have mapped : Mapped s.disk (s.icache k).toDinode (s.icache k).size := by
    rw [loaded.same]
    exact ⟨fits, fun bn bound => (blocks bn bound).trans (mul_lt_iff_lt_ceil ..).symm,
      indirect.trans (mul_lt_iff_lt_ceil ..).symm⟩
  exact wp_mono (wp_readi_mapped loaded.same loaded.allocated loaded.notDev mapped off n) (fun _ _ both => both.1)
    fun _ none => none

theorem AtRest.stops (rest : AtRest s) (alive : (s.procs p).cwd ≠ none) (granted : call.Granted s) {e : Stop}
    (stopped : (call.code p).run s = .error e) : e.Benign :=
  (wp.error (wp_call rest alive granted) stopped).1

theorem blocks_owned (formed : image.WellFormed)
    (reached : run step (image.boot tty peer) calls = some s) :
    BlockOwnership s ∧
    (∀ p fd n r t, (sysRead p fd n).run s = .ok (r, t) → t.disk = s.disk ∧ t.trace = s.trace) ∧
    (∀ u k off n, BlockOwnership u → u.Loaded k → wp (readi k off n) (fun _ t => t = u) (fun _ => False) u) ∧
    ∀ p (call : Call) e, (s.procs p).cwd ≠ none → call.Granted s → (call.code p).run s = .error e →
      e ≠ .panic "freeing free block" ∧ e ≠ .panic "bmap: out of range" := by
  have rest := run_atRest formed reached
  refine ⟨rest.inv.disk.blocks.ownership, ?_, fun u k off n owned loaded => owned.wp_readi loaded off n, ?_⟩
  · intro p fd n r t read
    obtain ⟨still, -⟩ := wp.ok (wp_sysRead rest fd n) read
    exact ⟨still.disk, still.trace⟩
  · intro p call e alive granted stopped
    have benign := rest.stops alive granted stopped
    constructor
    · rintro rfl
      exact absurd benign (by decide)
    · rintro rfl
      exact absurd benign (by decide)

theorem blocks_owned_small : ∃ s, run step (smallImage.boot [] []) someCalls = some s ∧
    inUse s.sb s.disk 7 = false ∧ inUse s.sb s.disk 8 = true ∧ BlockOwnership s := by
  have outcome : (run step (smallImage.boot [] []) someCalls).any
      (fun s => !inUse s.sb s.disk 7 && inUse s.sb s.disk 8) = true := by decide +kernel
  obtain ⟨s, reached, bits⟩ := (Option.any_eq_true _ _).mp outcome
  rw [Bool.and_eq_true, Bool.not_eq_true'] at bits
  exact ⟨s, reached, bits.1, bits.2, (blocks_owned smallImage_wellFormed reached).1⟩

/-- How many open files and current directories are the entry `k`. -/
def references (s : State) (k : Fin NINODE) : Nat :=
  (univ.filter fun f => 0 < (s.ftable f).ref ∧ (s.ftable f).type = .inode ∧ (s.ftable f).ip = k).card +
    (univ.filter fun p => (s.procs p).cwd = some k).card

theorem references_eq (closed : ∀ f, (s.ftable f).ref = 0 → (s.ftable f).type = .none) (k : Fin NINODE) :
    references s k = held s k := by
  have files : (univ.filter fun f => 0 < (s.ftable f).ref ∧ (s.ftable f).type = .inode ∧ (s.ftable f).ip = k).card =
      ∑ f, (s.ftable f).holds k := by
    rw [card_filter]
    refine sum_congr rfl fun f _ => ?_
    refine if_congr ⟨fun all => all.2, fun both => ⟨pos_of_ne_zero fun zero => ?_, both⟩⟩ rfl rfl
    have type := closed f zero
    rw [both.1] at type
    cases type
  have procs : (univ.filter fun p => (s.procs p).cwd = some k).card = ∑ p, (s.procs p).holds k := card_filter ..
  rw [references, files, procs, held_def]

theorem inode_references_exact (formed : image.WellFormed)
    (reached : run step (image.boot tty peer) calls = some s) :
    (∀ k, (s.icache k).ref = references s k) ∧
    ∀ k l, 0 < (s.icache k).ref → 0 < (s.icache l).ref → (s.icache k).inum = (s.icache l).inum → k = l := by
  have inv := (run_atRest formed reached).inv
  refine ⟨fun k => ?_, inv.cache.unique⟩
  rw [references_eq inv.refs.closed, inv.refs.refs, Multiset.count_zero, add_zero]

theorem inode_references_small : ∃ s, run step (smallImage.boot [] []) someCalls = some s ∧
    ∀ k, (s.icache k).ref = references s k := by
  obtain ⟨s, reached⟩ := someCalls_return
  exact ⟨s, reached, (inode_references_exact smallImage_wellFormed reached).1⟩

/-- Between calls no inode is locked, what is open is allocated and as it is on the disk, and no
directory is open for writing. -/
theorem open_inodes_sound (formed : image.WellFormed)
    (reached : run step (image.boot tty peer) calls = some s) :
    (∀ k, (s.icache k).lock = false) ∧
    (∀ k, 0 < (s.icache k).ref → (s.dinode (s.icache k).inum).type ≠ 0 ∧
      ((s.icache k).valid = true → (s.icache k).toDinode = s.dinode (s.icache k).inum)) ∧
    ∀ f, (s.ftable f).type = .inode → (s.ftable f).writable = true →
      (s.dinode (s.icache (s.ftable f).ip).inum).type ≠ T_DIR := by
  have inv := (run_atRest formed reached).inv
  refine ⟨fun k => ?_, fun k held => ⟨?_, fun valid => (inv.cache.cached k held valid).1⟩, inv.refs.writable⟩
  · rw [← Bool.not_eq_true, inv.refs.lock k]
    exact notMem_empty k
  · have refs := inv.refs.refs k
    rw [Multiset.count_zero, add_zero] at refs
    exact inv.refs.allocated k (refs ▸ held)

theorem open_inodes_small : ∃ s, run step (smallImage.boot [] []) someCalls = some s ∧
    ∀ k, (s.icache k).lock = false := by
  obtain ⟨s, reached⟩ := someCalls_return
  exact ⟨s, reached, (open_inodes_sound smallImage_wellFormed reached).1⟩

/-- How many descriptors of processes are the file `f`. -/
def descriptors (s : State) (f : Fin NFILE) : Nat :=
  (univ.filter fun slot : Fin NPROC × Fin NOFILE => (s.procs slot.1).ofile slot.2 = some f).card

theorem descriptors_eq (f : Fin NFILE) : descriptors s f = slots s f := by
  rw [descriptors, card_filter, Fintype.sum_prod_type]
  rfl

def State.HasEnd (s : State) (page : Nat) (writable : Bool) : Prop :=
  ∃ f, 0 < (s.ftable f).ref ∧ (s.ftable f).type = .pipe ∧ (s.ftable f).pipe = page ∧ (s.ftable f).writable = writable

theorem FileInv.isOpen_iff {count : Fin NFILE → Nat} (files : FileInv s count)
    (closed : ∀ f, (s.ftable f).ref = 0 → (s.ftable f).type = .none) {page : Nat} {pipe : Pipe}
    (there : s.pipes.pipe page = some pipe) (writable : Bool) : pipe.isOpen writable = true ↔ s.HasEnd page writable := by
  have ends := files.ends page writable
  rw [there, openEnd] at ends
  constructor
  · intro open_
    rw [open_] at ends
    obtain ⟨f, -, nonzero⟩ := exists_ne_zero_of_sum_ne_zero (ends.trans_ne one_ne_zero)
    have here : (s.ftable f).type = .pipe ∧ (s.ftable f).pipe = page ∧ (s.ftable f).writable = writable := by
      by_contra wrong
      exact nonzero (if_neg wrong)
    refine ⟨f, pos_of_ne_zero fun zero => ?_, here⟩
    have type := closed f zero
    rw [here.1] at type
    cases type
  · rintro ⟨f, -, here⟩
    have one : (s.ftable f).isEnd page writable = 1 := if_pos here
    have total := le_sum (fun f => (s.ftable f).isEnd page writable) f
    rw [ends] at total
    cases shut : pipe.isOpen writable with
    | true => rfl
    | false =>
      rw [shut] at total
      change (s.ftable f).isEnd page writable ≤ 0 at total
      omega

theorem file_references_exact (formed : image.WellFormed)
    (reached : run step (image.boot tty peer) calls = some s) :
    (∀ f, (s.ftable f).ref = descriptors s f) ∧
    (∀ f, (s.ftable f).ref = 0 → (s.ftable f).type = .none) ∧
    (∀ page pipe, s.pipes.pipe page = some pipe →
      (pipe.readopen = true ↔ s.HasEnd page false) ∧ (pipe.writeopen = true ↔ s.HasEnd page true) ∧
        (pipe.readopen = true ∨ pipe.writeopen = true)) ∧
    (∀ page, pageAfter page s.pipes.events = some (s.pipes.pipe page).isSome) ∧
    ∀ p (call : Call) e, (s.procs p).cwd ≠ none → call.Granted s → (call.code p).run s = .error e →
      e ≠ .panic "filedup" ∧ e ≠ .panic "fileclose" := by
  have rest := run_atRest formed reached
  have closed := rest.inv.refs.closed
  refine ⟨fun f => ?_, closed, ?_, rest.files.pages, ?_⟩
  · rw [rest.files.refs, descriptors_eq]
  · intro page pipe there
    exact ⟨rest.files.isOpen_iff closed there false, rest.files.isOpen_iff closed there true, rest.files.open_ page pipe there⟩
  · intro p call e alive granted stopped
    have benign := rest.stops alive granted stopped
    constructor
    · rintro rfl
      exact absurd benign (by decide)
    · rintro rfl
      exact absurd benign (by decide)

theorem file_references_small : ∃ s, run step (smallImage.boot [] []) someCalls = some s ∧
    ∀ f, (s.ftable f).ref = descriptors s f := by
  obtain ⟨s, reached⟩ := someCalls_return
  exact ⟨s, reached, (file_references_exact smallImage_wellFormed reached).1⟩

theorem operations_bracketed (formed : image.WellFormed)
    (reached : run step (image.boot tty peer) calls = some s) (taken : step s (p, call) = some t) :
    ∃ events, t.trace = events ++ s.trace ∧ opAfter false events = some false := by
  obtain ⟨r, done⟩ := step_done (run_atRest formed reached) taken
  exact done.returned.trace

theorem unlink_bracketed : ∃ t, step (smallImage.boot [] []) (initproc, .unlink pathAB) = some t ∧
    opAfter false t.trace = some false := by
  have returns : (step (smallImage.boot [] []) (initproc, .unlink pathAB)).isSome = true := by decide +kernel
  obtain ⟨t, taken⟩ := Option.isSome_iff_exists.mp returns
  have booted : run step (smallImage.boot [] []) [] = some (smallImage.boot [] []) := rfl
  obtain ⟨events, trace, bracketed⟩ := operations_bracketed smallImage_wellFormed booted taken
  rw [show (smallImage.boot [] []).trace = [] from rfl, List.append_nil] at trace
  exact ⟨t, taken, trace ▸ bracketed⟩

end Xv6.Fs
