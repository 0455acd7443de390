import Xv6.Fs.Listing
import Xv6.Vm.Program

/-! What system calls leave behind when they fail. -/

namespace Xv6.Fs
open Lib Function
open Transition (ok_of_toOption run)

section Exec

variable {s t : State} {p : Fin NPROC}

theorem Undisturbed.held (same : Undisturbed s t) (k : Fin NINODE) : held t k = held s k := by
  rw [Fs.held, same.procs, same.ftable, Fs.held]

theorem Undisturbed.refs (same : Undisturbed s t) (before : AtRest s) (after : AtRest t) (k : Fin NINODE) :
    (t.icache k).ref = (s.icache k).ref ∧ (t.icache k).lock = false := by
  constructor
  · rw [after.inv.refs.refs, before.inv.refs.refs, same.held]
  · apply Bool.eq_false_iff.mpr
    intro locked
    exact Finset.notMem_empty k ((after.inv.refs.lock k).mp locked)

/-- `exec` returns -1: the process, its memory and the free pages are as before, and so are the
open files, the current directories and the references; the transaction is closed. The only stop
is a null pointer in `uva2ka`. -/
theorem failed_exec_changes_nothing {m : Vm.Mem} {q : Vm.Proc} (ready : Vm.Ready m q) (path : Path)
    (file : Option (List UInt8)) (small : ∀ bytes, file = some bytes → bytes.length < 2 ^ 32) (argv : List (List UInt8))
    (short : ∀ arg ∈ argv, arg.length < Vm.KERNBASE) (rest : AtRest s) (alive : (s.procs p).cwd ≠ none) (vm : Vm) :
    (∀ q' m', (Vm.exec q path.bytes file argv).run m = .ok ((q', -1), m') → q' = q ∧ Vm.Restored m m') ∧
    (∀ e, (Vm.exec q path.bytes file argv).run m = .error e → e = .nullPte) ∧
    ∀ t, (exec p path vm).run s = .ok (-1, t) → Undisturbed s t ∧
      (∀ k, (t.icache k).ref = (s.icache k).ref ∧ (t.icache k).lock = false) ∧
      t.outstanding = s.outstanding ∧ Traced false false s.trace t.trace := by
  have memory : wp (Vm.exec q path.bytes file argv) (fun r m' => r.2 = -1 → r.1 = q ∧ Vm.Restored m m')
      (fun e => e = .nullPte) m := by
    cases file with
    | none => exact wp_pure.mpr fun _ => ⟨rfl, rfl, rfl, fun _ _ => rfl⟩
    | some bytes =>
      apply Vm.wp_exec ready path.bytes (small bytes rfl) short
      · exact fun _ => rfl
      · exact fun m' restored _ _ => ⟨rfl, restored⟩
      · intro n pd m' _ _ _ _ _ _ _ wrong
        cases wrong
  obtain ⟨cwd, here⟩ := Option.ne_none_iff_exists'.mp alive
  refine ⟨fun q' m' ran => wp.ok memory ran rfl, fun e ran => wp.error memory ran, fun t ran => ?_⟩
  obtain ⟨done, same⟩ := wp.ok (wp_exec rest here path vm) ran
  exact ⟨same, same.refs rest done.rest, done.returned.outstanding, done.returned.trace⟩

/-- The segment of `byteElf` at the address 1. `exec` gives it up when the page directory and a page of the segment are
allocated. -/
def slantedElf : List UInt8 := Vm.byteElf.set 60 1

/-- `smallImage` with these bytes in the file `f`. -/
def elfImage : Image where
  sb := smallImage.sb
  disk := fun b =>
    match b with
    | 3 => Bytes.blit (smallImage.disk 3) 256 (dinodeBytes 2 1 85 8)
    | 4 => blockOfList [0xff, 1]
    | 8 => blockOfList slantedElf
    | b => smallImage.disk b

theorem elfImage_flat : elfImage.Flat 4 where
  geometry := smallImage_flat.geometry
  few := by decide
  room := by decide
  addrs := by decide +kernel
  sizes := by decide +kernel
  types := by decide +kernel
  marked := by decide +kernel
  entries := by decide +kernel
  root := by decide +kernel

theorem exec_slantedElf : ∃ m', (Vm.exec Vm.largeProc pathF.bytes (some slantedElf) [[97]]).run Vm.largeMem =
    .ok ((Vm.largeProc, -1), m') := by
  have none : Vm.imageSize slantedElf = none := by decide
  have spec : wp (Vm.exec Vm.largeProc pathF.bytes (some slantedElf) [[97]]) (fun r _ => r = (Vm.largeProc, -1))
      (fun _ => False) Vm.largeMem := by
    apply Vm.wp_exec Vm.largeProc_ready pathF.bytes (by decide) (by decide)
    · rintro ⟨sz, va, image, -⟩
      rw [none] at image
      cases image
    · exact fun _ _ _ => rfl
    · intro n pd m' image
      rw [none] at image
      cases image
  obtain ⟨r, m', ran, rfl⟩ := wp.returns spec
  exact ⟨m', ran⟩

theorem failed_exec_slantedElf :
    (∃ pd m, Xv6.Vm.setupkvm.run Vm.largeMem = .ok (some pd, m) ∧ Vm.Building Vm.largeMem m pd) ∧
    (∃ m, (Vm.exec Vm.largeProc pathF.bytes (some slantedElf) [[97]]).run Vm.largeMem = .ok ((Vm.largeProc, -1), m) ∧
      Vm.Restored Vm.largeMem m) ∧
    ∃ t, (exec initproc pathF ⟨true, fun _ => true, true⟩).run (elfImage.boot [] []) = .ok (-1, t) ∧
      Undisturbed (elfImage.boot [] []) t ∧ t.outstanding = 0 ∧ t.trace ≠ [] := by
  have rest : AtRest (elfImage.boot [] []) := boot_atRest elfImage_flat.wellFormed
  have alive : ((elfImage.boot [] []).procs initproc).cwd ≠ none := by decide
  have small : ∀ bytes : List UInt8, some slantedElf = some bytes → bytes.length < 2 ^ 32 := by
    intro bytes same
    cases same
    decide
  obtain ⟨memory, -, files⟩ := failed_exec_changes_nothing Vm.largeProc_ready pathF (some slantedElf) small [[97]]
    (by decide) rest alive ⟨true, fun _ => true, true⟩
  refine ⟨?_, ?_, ?_⟩
  · have spec : wp Xv6.Vm.setupkvm (fun r m => ∃ pd, r = some pd ∧ Vm.Building Vm.largeMem m pd) (fun _ => False) Vm.largeMem := by
      apply Vm.wp_setupkvm _ Vm.largeProc_ready.linked
      · intro m _ few
        rw [Vm.largeMem, List.length_range'] at few
        exact absurd few (by decide)
      · exact fun pd m building _ => ⟨pd, rfl, building⟩
      · intro page member
        apply Vm.largeProc_ready.usable page
        rw [Vm.Mem.pages, add_assoc, add_assoc]
        exact Multiset.mem_add.mpr (.inl member)
    obtain ⟨_, m, ran, pd, rfl, building⟩ := wp.returns spec
    exact ⟨pd, m, ran, building⟩
  · obtain ⟨m, ran⟩ := exec_slantedElf
    exact ⟨m, ran, (memory _ _ ran).2⟩
  · have outcome : ((exec initproc pathF ⟨true, fun _ => true, true⟩).run (elfImage.boot [] [])).toOption.any
        (fun r => decide (r.1 = -1 ∧ r.2.trace ≠ [])) = true := by
      decide +kernel
    obtain ⟨⟨r, t⟩, ran, value⟩ := (Option.any_eq_true _ _).mp outcome
    obtain ⟨rfl, traced⟩ := of_decide_eq_true value
    have ran := ok_of_toOption ran
    obtain ⟨same, -, closed, -⟩ := files t ran
    exact ⟨t, ran, same, closed, traced⟩

end Exec

/-- The path leads to a directory that has no entry of the last name. -/
def Nodes.Makes (nodes : Nodes) (used : Finset Nat) (cwd : Nat) (path : List UInt8) (omode : Nat) : Prop :=
  omode &&& O_CREATE ≠ 0 ∧
    ∃ d name, nodes.resolve used cwd true path = .ok (some (d, name)) ∧ (nodes d).lookup name = none

section Open

variable {nodes : Nodes} {n cwd omode : Nat} {used : Finset Nat} {path : List UInt8}

theorem Nodes.openInode_makes {o : Option (Nat × Nodes)} (small : n ≤ 2 ^ 16) (makes : nodes.Makes used cwd path omode)
    (done : nodes.openInode n used cwd path omode = .ok o) :
    ∃ x made, o = some (x, made) ∧ (nodes x).type = 0 ∧ (made.reap used x x).type = T_FILE := by
  obtain ⟨creates, d, name, parent, missing⟩ := makes
  have dir := Nodes.resolve_dir parent
  rw [Nodes.openInode, if_pos creates, Nodes.create, parent] at done
  dsimp only at done
  split at done
  next => cases done
  next i looked =>
    rw [Nodes.dirlookup_some looked] at missing
    cases missing
  next looked =>
    rw [Nodes.createNew_of_none small dir missing (Nodes.dirlookup_none looked).2] at done
    split at done
    next => cases done
    next made =>
      cases done
      split at made
      next => cases made
      next x taken =>
        split at made <;> cases made
        have free := (Nodes.ialloc_ok taken).2.2
        have apart : x ≠ d := by
          rintro rfl
          rw [free] at dir
          cases dir
        refine ⟨x, _, rfl, free, ?_⟩
        have file : (nodes.make x T_FILE 0 0).placed d name x T_FILE x = { Node.new T_FILE with nlink := 1 } := by
          rw [Nodes.placed, if_neg (by decide), update_of_ne apart, Nodes.make, update_self]
          rfl
        have linked : ((nodes.make x T_FILE 0 0).placed d name x T_FILE x).nlink ≠ 0 := by
          rw [file]
          decide
        have kept := Nodes.reap_of_linked linked (insert x used) d
        rw [Nodes.reap_of_linked (by rw [kept]; exact linked), kept, file]
        rfl

theorem Nodes.openInode_old {x : Nat} {made : Nodes} (small : n ≤ 2 ^ 16) (old : ¬ nodes.Makes used cwd path omode)
    (done : nodes.openInode n used cwd path omode = .ok (some (x, made))) : made = nodes := by
  unfold Nodes.openInode at done
  split at done
  next creates =>
    obtain ⟨-, same⟩ | ⟨d, name, created, -⟩ := Nodes.create_some small done
    · exact same
    · exact absurd ⟨creates, d, name, created.parent, created.missing⟩ old
  next =>
    split at done
    next => cases done
    next => cases done
    next =>
      split at done <;> cases done
      rfl

end Open

/-- `open` returns -1: it has changed something if and only if it was to make a new file. Then
the file was there before a descriptor was looked for. -/
theorem failed_open_changes_iff {image : Image} {tty peer : List (Option (List UInt8))}
    {calls : List (Fin NPROC × Call)} {s t : State} {p : Fin NPROC} {path : Path} {omode : Nat} (clean : image.Clean)
    (reached : run step (image.boot tty peer) calls = some s) (alive : (s.procs p).cwd ≠ none)
    (failed : (sysOpen p path omode).run s = .ok (-1, t)) :
    (t.nodes = s.nodes ∧ Undisturbed s t ∧ ∀ k, (t.icache k).ref = (s.icache k).ref) ↔
      ¬ s.nodes.Makes (s.used 0) (s.cwdInum p) path.bytes omode := by
  obtain ⟨settled, -⟩ := run_settled (fun _ => True) clean trivial (fun _ _ _ _ _ _ _ _ _ => trivial)
    (fun _ _ _ _ _ _ => trivial) reached
  obtain ⟨cwd, here⟩ := Option.ne_none_iff_exists'.mp alive
  obtain ⟨done, same⟩ := wp.ok (wp_sysOpen settled.rest here path omode) failed
  obtain ⟨-, opened⟩ := done.covered settled.covered
  rw [State.cwdInum_eq here]
  have refs := fun k => ((same rfl).refs settled.rest done.rest k).1
  constructor
  · rintro ⟨nodes, -, -⟩ makes
    obtain ⟨result, -, -⟩ | ⟨x, made, result, ⟨-, wrong, -⟩ | ⟨-, -, after⟩⟩ := opened
    · obtain ⟨x, made, none, -⟩ := Nodes.openInode_makes settled.small makes result
      cases none
    · cases wrong
    · obtain ⟨y, after', both, free, file⟩ := Nodes.openInode_makes settled.small makes result
      cases both
      rw [← after, nodes, free] at file
      cases file
  · intro old
    refine ⟨?_, same rfl, refs⟩
    obtain ⟨-, -, nodes⟩ | ⟨x, made, result, ⟨-, wrong, -⟩ | ⟨-, -, after⟩⟩ := opened
    · exact nodes
    · cases wrong
    · rw [after, Nodes.openInode_old settled.small old result]
      exact settled.covered.reap x

def rootX : Path := ⟨[47, 120], by decide⟩

theorem failed_open_missing : ∃ t, (sysOpen initproc rootX O_RDONLY).run (smallImage.boot [] []) = .ok (-1, t) ∧
    t.nodes = (smallImage.boot [] []).nodes := by
  have outcome : ((sysOpen initproc rootX O_RDONLY).run (smallImage.boot [] [])).toOption.any (fun r => decide (r.1 = -1)) = true := by
    decide +kernel
  obtain ⟨⟨r, t⟩, ran, value⟩ := (Option.any_eq_true _ _).mp outcome
  obtain rfl : r = -1 := of_decide_eq_true value
  have ran := ok_of_toOption ran
  have booted : run step (smallImage.boot [] []) [] = some (smallImage.boot [] []) := rfl
  exact ⟨t, ran, ((failed_open_changes_iff smallImage_clean booted (by decide) ran).mpr fun makes => makes.1 rfl).1⟩

def manyOpen : List (Fin NPROC × Call) := (initproc, .open pathF O_RDONLY) :: List.replicate 15 (initproc, .dup 0)

/-- `/x` is made, and there is no descriptor for it. -/
theorem failed_open_leaves_file : smallImage.Clean ∧ ∃ s t, run step (smallImage.boot [] []) manyOpen = some s ∧
    (s.procs initproc).cwd ≠ none ∧ (sysOpen initproc rootX O_CREATE).run s = .ok (-1, t) ∧
    (s.nodes 5).type = 0 ∧ (t.nodes 5).type = T_FILE := by
  have outcome : (run step (smallImage.boot [] []) manyOpen).any (fun s =>
      ((sysOpen initproc rootX O_CREATE).run s).toOption.any fun r =>
        decide ((s.procs initproc).cwd ≠ none ∧ r.1 = -1 ∧ (s.nodes 5).type = 0 ∧ (r.2.nodes 5).type = T_FILE)) = true := by
    decide +kernel
  obtain ⟨s, reached, outcome⟩ := (Option.any_eq_true _ _).mp outcome
  obtain ⟨⟨r, t⟩, ran, after⟩ := (Option.any_eq_true _ _).mp outcome
  obtain ⟨alive, rfl, free, file⟩ := of_decide_eq_true after
  exact ⟨smallImage_clean, s, t, reached, alive, ok_of_toOption ran, free, file⟩

end Xv6.Fs
