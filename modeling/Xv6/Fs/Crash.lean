import Xv6.Fs.Books
import Xv6.Fs.Removed
import Xv6.Fs.SharedWrites

/-! Crashes. The calls are cut into pieces of one transaction each, and a disk after recovery is the
one before or after a piece. -/

namespace Xv6.Fs
open Lib Function
open Transition (run run_cons run_append)

def State.fileOf (s : State) (p : Fin NPROC) (fd : Nat) : Option (Fin NFILE) :=
  if h : fd < NOFILE then (s.procs p).ofile ⟨fd, h⟩ else none

inductive Piece where
  /-- A call that is one transaction, or none. -/
  | call (call : Call)
  /-- A turn of the loop of `filewrite`. -/
  | turn (f : Fin NFILE) (chunk : List UInt8)
  /-- A descriptor that `exit` closes. -/
  | close (fd : Fin NOFILE)
  /-- The rest of `exit`. -/
  | leave

/-- The call is one piece: neither `exit` nor `write` to a file that has an inode. -/
def Call.Whole (s : State) (p : Fin NPROC) : Call → Prop
  | .write fd _ => (s.fileOf p fd).all (fun f => (s.ftable f).type ≠ .inode) = true
  | .exit => False
  | _ => True

instance (s : State) (p : Fin NPROC) (call : Call) : Decidable (call.Whole s p) :=
  match call with
  | .write fd _ => inferInstanceAs (Decidable ((s.fileOf p fd).all (fun f => (s.ftable f).type ≠ .inode) = true))
  | .exit => .isFalse id
  | .open .. | .mkdir .. | .mknod .. | .link .. | .unlink .. | .chdir .. | .exec .. | .read .. | .fstat .. | .dup .. | .close ..
  | .pipe .. | .fork .. | .unfetched => .isTrue trivial

variable {s t : State} {p : Fin NPROC} {piece : Piece}

namespace Piece

def code (p : Fin NPROC) : Piece → FsM Unit
  | .call c => (fun _ => ()) <$> c.code p
  | .turn f chunk => (fun _ => ()) <$> filewriteTurn f chunk
  | .close fd => exitClose p fd
  | .leave => exitLeave p

def Next (s : State) (p : Fin NPROC) : Piece → Prop
  | .call c => c.Granted s ∧ c.Whole s p
  | .turn f _ => (s.ftable f).type = .inode ∧ (s.ftable f).writable = true
  | .close _ => p ≠ initproc
  | .leave => p ≠ initproc ∧ ∀ fd, (s.procs p).ofile fd = none

instance (s : State) (p : Fin NPROC) (piece : Piece) : Decidable (piece.Next s p) :=
  match piece with
  | .call c => inferInstanceAs (Decidable (c.Granted s ∧ c.Whole s p))
  | .turn f _ => inferInstanceAs (Decidable ((s.ftable f).type = .inode ∧ (s.ftable f).writable = true))
  | .close _ => inferInstanceAs (Decidable (p ≠ initproc))
  | .leave => inferInstanceAs (Decidable (p ≠ initproc ∧ ∀ fd, (s.procs p).ofile fd = none))

def step (s : State) (l : Fin NPROC × Piece) : Option State :=
  if (s.procs l.1).cwd ≠ none ∧ l.2.Next s l.1 then
    match (l.2.code l.1).run s with
    | .ok (_, t) => some t
    | .error _ => none
  else none

section Step

theorem step_cases (taken : step s (p, piece) = some t) :
    (s.procs p).cwd ≠ none ∧ piece.Next s p ∧ (piece.code p).run s = .ok ((), t) := by
  unfold step at taken
  split at taken
  next enabled =>
    split at taken
    next r u returned =>
      obtain rfl := Option.some.inj taken
      exact ⟨enabled.1, enabled.2, returned⟩
    next => cases taken
  next => cases taken

theorem step_of_ok (alive : (s.procs p).cwd ≠ none) (next : piece.Next s p) (returned : (piece.code p).run s = .ok ((), t)) :
    step s (p, piece) = some t := by
  rw [step, if_pos ⟨alive, next⟩, returned]

end Step

end Piece

section Cut

variable {f : Fin NFILE}

variable {α β : Type} {prog : FsM α}

theorem run_bind_ok {next : α → FsM β} {r : β} (done : (prog >>= next).run s = .ok (r, t)) :
    ∃ a u, prog.run s = .ok (a, u) ∧ (next a).run u = .ok (r, t) := by
  change (prog s >>= fun x => next x.1 x.2) = .ok (r, t) at done
  cases first : prog s with
  | error e =>
    rw [first] at done
    cases done
  | ok x =>
    rw [first] at done
    exact ⟨x.1, x.2, first, done⟩

theorem run_map_ok {g : α → β} {r : β} (done : (g <$> prog).run s = .ok (r, t)) :
    ∃ a, prog.run s = .ok (a, t) ∧ g a = r := by
  rw [map_eq_pure_bind] at done
  obtain ⟨a, u, first, last⟩ := run_bind_ok done
  cases last
  exact ⟨a, first, rfl⟩

theorem map_run {g : α → β} {a : α} (done : prog.run s = .ok (a, t)) :
    (g <$> prog).run s = .ok (g a, t) := by
  rw [map_eq_pure_bind]
  change (prog s >>= fun x => (pure (g x.1) : FsM β) x.2) = _
  rw [show prog s = .ok (a, t) from done]
  rfl

variable {count : Fin NFILE → Nat}

theorem FileStep.alive (written : FileStep s t count) (alive : (s.procs p).cwd ≠ none) :
    (t.procs p).cwd ≠ none := by
  rw [written.procs]
  exact alive

variable {src : List UInt8}

theorem run_filewriteLoop (inv : Inv s 0 ∅) (files : FileInv s count) (alive : (s.procs p).cwd ≠ none)
    (type : (s.ftable f).type = .inode) (writable : (s.ftable f).writable = true) {fuel : Nat} {r : Bool}
    (done : (filewriteLoop f fuel src).run s = .ok (r, t)) : ∃ pieces, run Piece.step s pieces = some t := by
  induction fuel generalizing s src with
  | zero =>
    cases done
    exact ⟨[], rfl⟩
  | succ fuel ih =>
    rw [filewriteLoop] at done
    split at done
    next =>
      cases done
      exact ⟨[], rfl⟩
    next =>
      obtain ⟨r, u, turned, later⟩ := run_bind_ok done
      have first : Piece.step s (p, .turn f (src.take (min src.length filewriteMax))) = some u :=
        Piece.step_of_ok alive ⟨type, writable⟩ (map_run turned)
      obtain ⟨written, type', writable'⟩ := wp.ok (wp_filewriteTurn inv files type writable) turned
      split at later
      next =>
        cases later
        exact ⟨_ :: [], by rw [run_cons, first]; rfl⟩
      next =>
        split at later
        next => cases later
        next =>
          obtain ⟨pieces, rest⟩ := ih written.inv written.files (written.alive alive) type' writable' later
          exact ⟨_ :: pieces, by rw [run_cons, first]; exact rest⟩

theorem run_exitLoop {start : State} {earlier fds : List (Fin NOFILE)} (other : p ≠ initproc) (alive : (start.procs p).cwd ≠ none)
    (exiting : Exiting start s p earlier) {r : PUnit} (done : (fds.forM (exitClose p)).run s = .ok (r, t)) :
    (∃ pieces, run Piece.step s pieces = some t) ∧ Exiting start t p (earlier ++ fds) := by
  induction fds generalizing s earlier with
  | nil =>
    cases done
    rw [List.append_nil]
    exact ⟨⟨[], rfl⟩, exiting⟩
  | cons fd fds ih =>
    obtain ⟨_, u, closed, later⟩ := run_bind_ok done
    have first : Piece.step s (p, .close fd) = some u := Piece.step_of_ok (by rw [exiting.cwd]; exact alive) other closed
    obtain ⟨⟨pieces, rest⟩, exiting'⟩ := ih (wp.ok (exiting.wp_exitClose fd) closed) later
    rw [List.append_assoc] at exiting'
    exact ⟨⟨_ :: pieces, by rw [run_cons, first]; exact rest⟩, exiting'⟩

theorem run_sysWrite (p : Fin NPROC) (fd : Nat) (src : List UInt8) : (sysWrite p fd src).run s =
    match s.fileOf p fd with
    | none => .ok (none, s)
    | some f => (filewrite f src).run s := by
  unfold sysWrite argfd State.fileOf
  by_cases inside : fd < NOFILE
  · simp only [dif_pos inside, getProc, bind_assoc, pure_bind, StateT.run_bind, StateT.run_get]
    cases (s.procs p).ofile ⟨fd, inside⟩ <;> rfl
  · simp only [dif_neg inside]
    rfl

theorem run_filewrite (rest : AtRest s) (alive : (s.procs p).cwd ≠ none) (type : (s.ftable f).type = .inode)
    {r : Option Nat} (done : (filewrite f src).run s = .ok (r, t)) : ∃ pieces, run Piece.step s pieces = some t := by
  obtain ⟨file, u, got, later⟩ := run_bind_ok done
  cases got
  split at later
  next =>
    cases later
    exact ⟨[], rfl⟩
  next open_ =>
    rw [type] at later
    obtain ⟨whole, u, looped, last⟩ := run_bind_ok later
    cases last
    exact run_filewriteLoop rest.inv rest.files alive type (by simpa using open_) looped

theorem step_pieces (rest : AtRest s) {call : Call} (taken : step s (p, call) = some t) :
    ∃ pieces, run Piece.step s pieces = some t := by
  obtain ⟨alive, granted, r, returned⟩ := step_cases taken
  by_cases whole : call.Whole s p
  · have first : Piece.step s (p, .call call) = some t := Piece.step_of_ok alive ⟨granted, whole⟩ (map_run returned)
    exact ⟨[_], by rw [run_cons, first]; rfl⟩
  cases call with
  | write fd src =>
    obtain ⟨a, done, -⟩ := run_map_ok returned
    rw [run_sysWrite] at done
    change ¬ (s.fileOf p fd).all (fun f => (s.ftable f).type ≠ .inode) = true at whole
    cases found : s.fileOf p fd with
    | none =>
      rw [found] at whole
      exact absurd rfl whole
    | some f =>
      rw [found] at whole done
      exact run_filewrite rest alive (by simpa using whole) done
  | exit =>
    obtain ⟨a, done, -⟩ := run_map_ok returned
    rw [exit_eq] at done
    split at done
    next => cases done
    next other =>
      obtain ⟨_, u, closed, left⟩ := run_bind_ok done
      obtain ⟨⟨pieces, first⟩, exiting⟩ := run_exitLoop other alive (rest.exiting p) closed
      have last : Piece.step u (p, .leave) = some t := by
        refine Piece.step_of_ok (by rw [exiting.cwd]; exact alive) ⟨other, fun fd => ?_⟩ left
        exact exiting.ofile fd (List.mem_finRange fd)
      exact ⟨pieces ++ [_], by rw [run_append, first, Option.bind_some, run_cons, last]; rfl⟩
  | «open» | mkdir | mknod | link | unlink | chdir | exec | read | fstat | dup | close | pipe | fork | unfetched =>
    exact absurd trivial whole

/-- What calls reach, their pieces reach. -/
theorem run_pieces {image : Image} {tty peer : List (Option (List UInt8))} {calls : List (Fin NPROC × Call)}
    (formed : image.WellFormed) (reached : run step (image.boot tty peer) calls = some s) :
    ∃ pieces, run Piece.step (image.boot tty peer) pieces = some s := by
  induction calls using List.reverseRecOn generalizing s with
  | nil =>
    cases reached
    exact ⟨[], rfl⟩
  | append_singleton calls l ih =>
    obtain ⟨u, earlier, last⟩ := Transition.run_snoc step reached
    obtain ⟨pieces, first⟩ := ih earlier
    obtain ⟨more, second⟩ := step_pieces (run_atRest formed earlier) last
    exact ⟨pieces ++ more, by rw [run_append, first]; exact second⟩

end Cut

variable {name : List UInt8}

namespace Nodes

variable {nodes after : Nodes} {used : Finset Nat} {n d i x y : Nat}

def NoOrphans (nodes : Nodes) : Prop := ∀ x, (nodes x).type ≠ 0 → (nodes x).nlink ≠ 0

theorem Drift.orphan (drift : nodes.Drift after) (type : (after x).type ≠ 0) (nlink : (after x).nlink = 0) :
    (nodes x).type ≠ 0 ∧ (nodes x).nlink = 0 := by
  induction drift with
  | refl => exact ⟨type, nlink⟩
  | tail _ last ih =>
    obtain same | ⟨used, y, rfl⟩ := last
    · obtain ⟨type', nlink', -⟩ := same x
      exact ih (type' ▸ type) (nlink' ▸ nlink)
    · unfold Nodes.reap at type nlink
      split at type
      next gone =>
        rw [if_pos gone] at nlink
        by_cases here : x = y
        · rw [here, update_self] at type
          exact absurd rfl type
        · rw [update_of_ne here] at type nlink
          exact ih type nlink
      next stays =>
        rw [if_neg stays] at nlink
        exact ih type nlink

theorem NoOrphans.drift (linked : nodes.NoOrphans) (drift : nodes.Drift after) : after.NoOrphans := fun x type nlink =>
  linked x (drift.orphan type nlink).1 (drift.orphan type nlink).2

theorem NoOrphans.live (linked : nodes.NoOrphans) (dir : (nodes d).type = T_DIR) : nodes.Live d :=
  ⟨dir, linked d (by rw [dir]; decide)⟩

theorem NoOrphans.linkAdded (linked : nodes.NoOrphans) (apart : d ≠ x) (few : nodes.Uncrowded) :
    (nodes.linkAdded x d name).NoOrphans := by
  intro y type
  by_cases home : y = d
  · subst home
    rw [linkAdded_dir apart] at type ⊢
    exact linked y type
  rw [Nodes.linkAdded, update_of_ne home, relink_apply] at type ⊢
  by_cases other : y = x
  · subst other
    rw [if_pos rfl, Nat.mod_eq_of_lt (few y)]
    exact Nat.succ_ne_zero _
  · rw [if_neg other]
    exact linked y type

theorem NoOrphans.placed {type major minor : Nat} (linked : nodes.NoOrphans) (apart : d ≠ x) (dir : (nodes d).type = T_DIR)
    (few : nodes.Uncrowded) : ((nodes.make x type major minor).placed d name x type).NoOrphans := by
  intro y allocated
  by_cases home : y = d
  · subst home
    rw [placed_dir apart]
    split
    · rw [Nat.mod_eq_of_lt (few y)]
      exact Nat.succ_ne_zero _
    · exact (linked.live dir).2
  by_cases other : y = x
  · subst other
    rw [placed_new apart]
    exact Nat.one_ne_zero
  · rw [placed_of_ne home other] at allocated ⊢
    exact linked y allocated

theorem reap_orphan (type : (nodes.reap used x x).type ≠ 0) (nlink : (nodes.reap used x x).nlink = 0) : x ∈ used := by
  by_contra unused
  unfold Nodes.reap at type nlink
  split at type
  next gone =>
    rw [update_self] at type
    exact type rfl
  next stays =>
    rw [if_neg stays] at nlink
    exact stays ⟨type, nlink, unused⟩

end Nodes

/-- The call does not remove the last name of an inode that is in use. -/
def Call.SparesUsed (s : State) (p : Fin NPROC) (call : Call) : Prop :=
  ∀ d e, call.Removes s (s.cwdInum p) d e → (s.nodes e.1).nlink = 1 → e.1 ∉ s.used 0

def Piece.SparesUsed (s : State) (p : Fin NPROC) : Piece → Prop
  | .call c => c.SparesUsed s p
  | .turn .. | .close _ | .leave => True

def Piece.Change (s : State) (p : Fin NPROC) : Piece → Nodes → Nodes → Prop
  | .call c => fun nodes after => ∃ r, c.Change s p r nodes after
  | .turn .. | .close _ | .leave => Nodes.Drift

section Effect

variable {call : Call} {after : Nodes}

theorem Nodes.NoOrphans.attached (linked : s.nodes.NoOrphans) {cwd : Nat} (d : Nat) (works : call.WorksIn s cwd d) :
    s.nodes.Live d := by
  cases works with
  | link linked' => exact linked.live (Nodes.resolve_dir linked'.parent)
  | unlink unlinked => exact linked.live (Nodes.resolve_dir unlinked.parent)
  | create _ created => exact linked.live (Nodes.resolve_dir created.parent)

theorem Nodes.Unlinked.orphan {cwd d i y : Nat} {path : Path} (exact : s.nodes.Exact s.sb.ninodes)
    (linked : s.nodes.NoOrphans) (few : s.nodes.Uncrowded) (unlinked : s.nodes.Unlinked (s.used 0) cwd path.bytes d i name)
    (type : (s.nodes.linkRemoved d i ((s.nodes d).entry i).inum y).type ≠ 0)
    (gone : (s.nodes.linkRemoved d i ((s.nodes d).entry i).inum y).nlink = 0) :
    y = ((s.nodes d).entry i).inum ∧ (s.nodes y).nlink = 1 := by
  have removes : (Call.unlink path).Removes s cwd d ((s.nodes d).listed i) := ⟨path, i, name, rfl, unlinked, rfl⟩
  have bound := few y
  by_cases home : y = d
  · subst home
    rw [Nodes.linkRemoved_dir unlinked.apart] at gone
    simp only at gone
    split at gone
    next dir =>
      have more := (removes.of_dir exact linked.attached dir).2.2.2.2.2
      omega
    next => exact absurd gone (linked.live (Nodes.resolve_dir unlinked.parent)).2
  rw [Nodes.linkRemoved_of_ne home, Nodes.relink_apply] at type gone
  have links := linked y type
  simp only at gone
  split at gone
  next here =>
    rw [← here] at gone
    exact ⟨here, by omega⟩
  next => exact absurd gone links

theorem Call.Change.noOrphans {r : Int} (change : call.Change s p r s.nodes after) (exact : s.nodes.Exact s.sb.ninodes)
    (small : s.sb.ninodes ≤ 2 ^ 16) (linked : s.nodes.NoOrphans) (few : s.nodes.Uncrowded) (spares : call.SparesUsed s p) :
    after.NoOrphans := by
  have others : (∀ path, call ≠ .unlink path) → after.NoOrphans := fun other => by
    cases change.effect small with
    | drift drift => exact linked.drift drift
    | @link old new x d name _ linked' drift =>
      have dir := Nodes.resolve_dir linked'.parent
      have apart : d ≠ x := fun same => linked'.file (same ▸ dir)
      exact (linked.linkAdded apart few).drift drift
    | unlink => exact absurd rfl (other _)
    | @create _ path type major minor x d name _ _ created drift =>
      have dir := Nodes.resolve_dir created.parent
      have apart : d ≠ x := fun same => absurd (dir.symm.trans (same ▸ created.free)) (by decide)
      exact (linked.placed apart dir few).drift drift
  cases call with
  | unlink path =>
    obtain ⟨o, result, rfl, -⟩ := change
    cases o with
    | none => exact linked
    | some after =>
      obtain ⟨d, i, name, unlinked, rfl⟩ := Nodes.unlink_some result
      intro y type gone
      obtain ⟨type', gone'⟩ := (Nodes.removeEntry_drift s.nodes (s.used 0) i unlinked.apart).orphan type gone
      obtain ⟨rfl, last⟩ := unlinked.orphan exact linked few type' gone'
      exact spares d ((s.nodes d).listed i) ⟨path, i, name, rfl, unlinked, rfl⟩ last (Nodes.reap_orphan type gone)
  | _ => exact others fun path wrong => nomatch wrong

theorem Piece.step_done (rest : AtRest s) (taken : Piece.step s (p, piece) = some t) : Done s t (piece.Change s p) := by
  obtain ⟨alive, next, returned⟩ := Piece.step_cases taken
  obtain ⟨cwd, here⟩ := Option.ne_none_iff_exists'.mp alive
  cases piece with
  | call c =>
    obtain ⟨r, called, -⟩ := run_map_ok returned
    obtain ⟨rest', returned', covered⟩ := wp.ok (wp_call rest alive next.1) called
    exact ⟨rest', returned', fun here => (covered here).imp_right fun change => ⟨r, change⟩⟩
  | turn f chunk =>
    obtain ⟨r, turned, -⟩ := run_map_ok returned
    exact (wp.ok (wp_filewriteTurn rest.inv rest.files next.1 next.2) turned).1.done rest
  | close fd =>
    have exiting := wp.ok ((rest.exiting p).wp_exitClose fd) returned
    exact ⟨exiting.rest rest here, exiting.returned, exiting.covered⟩
  | leave => exact wp.ok (wp_exitLeave rest here next.2) returned

end Effect

section Recovery

variable {image : Image} {tty peer : List (Option (List UInt8))}
  {pieces : List (Fin NPROC × Piece)} {l : Fin NPROC × Piece} {disk : Nat → Block}

/-- The image has lost nothing, and its links are exact. -/
structure Kept (image : Image) (s : State) : Prop where
  settled : Settled image s
  exact : s.nodes.Exact s.sb.ninodes
  linked : s.nodes.NoOrphans

theorem Kept.step (kept : Kept image s) (spares : piece.SparesUsed s p) (few : s.nodes.Uncrowded)
    (taken : Piece.step s (p, piece) = some t) : Kept image t := by
  obtain ⟨settled, exact, linked⟩ := kept
  have done := Piece.step_done settled.rest taken
  obtain ⟨covered, change⟩ := done.covered settled.covered
  have sb := done.returned.sb
  have settled' : Settled image t := ⟨done.rest, covered, sb.trans settled.sb, sb ▸ settled.small⟩
  refine ⟨settled', ?_, ?_⟩
  · rw [sb]
    cases piece with
    | call c =>
      obtain ⟨r, change⟩ := change
      exact (change.effect settled.small).exact exact settled.small linked.attached few
    | turn | close | leave => exact exact.drift change
  · cases piece with
    | call c =>
      obtain ⟨r, change⟩ := change
      exact change.noOrphans exact settled.small linked few spares
    | turn | close | leave => exact linked.drift change

end Recovery

end Xv6.Fs
