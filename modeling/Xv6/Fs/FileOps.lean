import Xv6.Fs.Files

/-! `file.c` up to `fileclose`, `pipeclose`, and the descriptors of a process. -/

namespace Xv6.Fs
open Lib Function Nat List Option

variable {post : Unit → State → Prop}

variable {s t u : State} {temps : Multiset (Fin NINODE)} {locks : Finset (Fin NINODE)}
  {stop : Stop → Prop} {count : Fin NFILE → Nat}

section Op

def begun (s : State) : State := { s with outstanding := s.outstanding + 1, trace := .beginOp :: s.trace }

def ended (s : State) : State := { s with outstanding := s.outstanding - 1, trace := .endOp :: s.trace }

@[simp] theorem begun_sb (s : State) : (begun s).sb = s.sb := rfl

@[simp] theorem begun_nodes (s : State) : (begun s).nodes = s.nodes := rfl

@[simp] theorem begun_icache (s : State) : (begun s).icache = s.icache := rfl

@[simp] theorem begun_used (s : State) (temps : Multiset (Fin NINODE)) : (begun s).used temps = s.used temps := rfl

theorem wp_beginOp : wp beginOp post stop s ↔ post () (begun s) := wp_of_ok rfl

theorem wp_endOp : wp endOp post stop s ↔ post () (ended s) := wp_of_ok rfl

theorem Inv.begun (inv : Inv s temps locks) : Inv (begun s) temps locks := inv.same rfl rfl rfl rfl rfl

theorem Inv.ended (inv : Inv s temps locks) : Inv (ended s) temps locks := inv.same rfl rfl rfl rfl rfl

theorem Covered.begun (covered : Covered s temps) : Covered (begun s) temps := covered

theorem Covered.ended (covered : Covered s temps) : Covered (ended s) temps := covered

theorem FileInv.ended (files : FileInv s count) : FileInv (ended s) count := files.same rfl rfl

/-- What a call that has returned leaves as it was. -/
structure Returned (s t : State) : Prop where
  sb : t.sb = s.sb
  outstanding : t.outstanding = s.outstanding
  trace : Traced false false s.trace t.trace

theorem Returned.refl (s : State) : Returned s s := ⟨rfl, rfl, .refl ..⟩

theorem Returned.trans (first : Returned s t) (second : Returned t u) : Returned s u :=
  ⟨second.sb.trans first.sb, second.outstanding.trans first.outstanding, first.trace.trans second.trace⟩

theorem Frame.returned (frame : Frame (begun s) t temps) : Returned s (ended t) where
  sb := frame.sb
  outstanding := by
    change t.outstanding - 1 = _
    rw [frame.outstanding]
    rfl
  trace := by
    have first : Traced false true s.trace (Fs.begun s).trace := .event rfl
    exact (first.trans frame.trace).trans (.event rfl)

theorem Frame.op (frame : Frame (Fs.begun s) t temps) : 0 < t.outstanding := by
  rw [frame.outstanding]
  exact succ_pos _

end Op

variable {f : Fin NFILE} {p : Fin NPROC}

section Files

  
theorem wp_getFile {post : File → State → Prop} : wp (getFile f) post stop s ↔ post (s.ftable f) s := wp_of_ok rfl

variable {file : File}

theorem wp_setFile :
    wp (setFile f file) post stop s ↔ post () { s with ftable := update s.ftable f file } := wp_of_ok rfl

theorem wp_getProc {post : Proc → State → Prop} : wp (getProc p) post stop s ↔ post (s.procs p) s := wp_of_ok rfl

theorem wp_setProc {proc : Proc} :
    wp (setProc p proc) post stop s ↔ post () { s with procs := update s.procs p proc } := wp_of_ok rfl

def withRef (s : State) (f : Fin NFILE) (ref : Nat) : State :=
  { s with ftable := update s.ftable f { s.ftable f with ref := ref } }

theorem Inv.withRef (inv : Inv s temps locks) (ref : Nat) (closed : ref = 0 → (s.ftable f).type = .none) :
    Inv (withRef s f ref) temps locks :=
  inv.setFile (fun _ => rfl) (fun type => ⟨inv.refs.allocated _ (held_of_file type), inv.refs.writable f type⟩) closed

theorem FileInv.withRef (files : FileInv s count) (ref : Nat) :
    FileInv (withRef s f ref) (update count f ref) :=
  files.setFile fun _ _ => rfl

theorem Rebound.withRef (s : State) (f : Fin NFILE) (ref : Nat) (temps : Multiset (Fin NINODE)) :
    Rebound s (withRef s f ref) temps temps := .setFile fun _ => rfl

theorem wp_filealloc (inv : Inv s temps locks) (files : FileInv s count) :
    wp filealloc (fun r t =>
        match r with
        | some f => t = withRef s f 1 ∧ (s.ftable f).type = .none ∧ count f = 0 ∧ Inv t temps locks ∧
          FileInv t (update count f 1)
        | none => t = s ∧ ∀ f, (s.ftable f).ref ≠ 0) (fun _ => False) s := by
  unfold filealloc
  rw [wp_bind, wp_get]
  split
  next f found =>
    have zero := find?_some found
    rw [decide_eq_true_iff] at zero
    rw [wp_bind, wp_setFile, wp_pure]
    exact ⟨rfl, inv.refs.closed f zero, by rw [← files.refs, zero], inv.withRef 1 fun wrong => (nomatch wrong), files.withRef 1⟩
  next missing =>
    refine wp_pure.mpr ⟨rfl, fun f => ?_⟩
    simpa using find?_eq_none.mp missing f (mem_finRange f)

theorem wp_filedup (inv : Inv s temps locks) (files : FileInv s count) (counted : 0 < count f) :
    wp (filedup f) (fun _ t => t = withRef s f (count f + 1) ∧ Inv t temps locks ∧
      FileInv t (update count f (count f + 1))) (fun _ => False) s := by
  unfold filedup
  rw [wp_bind, wp_getFile, files.refs, if_neg (by omega), wp_setFile]
  exact ⟨rfl, inv.withRef _ fun wrong => (nomatch wrong), files.withRef _⟩

def File.closed (file : File) : File := { file with ref := 0, type := .none }

theorem File.holds_closed (file : File) (k : Fin NINODE) : file.closed.holds k = 0 := if_neg fun both => nomatch both.1

theorem File.isEnd_closed (file : File) (page : Nat) (writable : Bool) : file.closed.isEnd page writable = 0 :=
  if_neg fun both => nomatch both.1

theorem File.holds_none (type : file.type ≠ .inode) (k : Fin NINODE) : file.holds k = 0 :=
  if_neg fun both => type both.1

theorem File.holds_cons (type : file.type = .inode) (k : Fin NINODE) :
    (file.ip ::ₘ temps).count k = file.holds k + temps.count k := by
  rw [Multiset.count_cons, File.holds, add_comm]
  by_cases same : file.ip = k
  · rw [if_pos same.symm, if_pos ⟨type, same⟩]
  · rw [if_neg fun wrong => same wrong.symm, if_neg fun both => same both.2]

def closedFile (s : State) (f : Fin NFILE) : State :=
  { s with ftable := update s.ftable f (s.ftable f).closed }

theorem FileInv.close (files : FileInv s count) (type : (s.ftable f).type ≠ .pipe) :
    FileInv (closedFile s f) (update count f 0) := by
  have ends : ∀ page writable, (s.ftable f).closed.isEnd page writable = (s.ftable f).isEnd page writable := by
    intro page writable
    rw [File.isEnd_closed, File.isEnd, if_neg fun both => type both.1]
  exact files.setFile ends

theorem Inv.close (inv : Inv s temps locks) (type : (s.ftable f).type ≠ .inode) : Inv (closedFile s f) temps locks := by
  refine inv.setFile (fun k => ?_) (fun wrong => nomatch wrong) fun _ => rfl
  rw [File.holds_none type, File.holds_closed]

theorem Rebound.close (temps : Multiset (Fin NINODE)) (type : (s.ftable f).type ≠ .inode) :
    Rebound s (closedFile s f) temps temps := by
  refine .setFile fun k => ?_
  rw [File.holds_none type, File.holds_closed]

theorem Rebound.closeInode (temps : Multiset (Fin NINODE)) (type : (s.ftable f).type = .inode) :
    Rebound s (closedFile s f) temps ((s.ftable f).ip ::ₘ temps) := by
  refine .setFile fun k => ?_
  rw [File.holds_closed, File.holds_cons type, zero_add]

theorem Inv.closeInode (inv : Inv s temps locks) (type : (s.ftable f).type = .inode) :
    Inv (closedFile s f) ((s.ftable f).ip ::ₘ temps) locks := by
  refine inv.setFile (fun k => ?_) (fun wrong => nomatch wrong) fun _ => rfl
  rw [File.holds_closed, File.holds_cons type, zero_add]

def Pipes.closed (pipes : Pipes) (page : Nat) (pipe : Pipe) : Pipes :=
  if pipe.readopen = false ∧ pipe.writeopen = false then
    ⟨update pipes.pipe page none, .kfree page :: pipes.events⟩
  else
    { pipes with pipe := update pipes.pipe page (some pipe) }

theorem Pipes.openEnd_closed (pipes : Pipes) (page : Nat) (pipe : Pipe) (q : Nat) (writable : Bool) :
    openEnd ((pipes.closed page pipe).pipe q) writable =
      if q = page then (pipe.isOpen writable).toNat else openEnd (pipes.pipe q) writable := by
  unfold Pipes.closed
  by_cases same : q = page
  · rw [same, if_pos rfl]
    split
    next both =>
      simp only [update_self, Pipe.isOpen, both.1, both.2]
      cases writable <;> rfl
    next =>
      simp only [update_self]
      rfl
  · rw [if_neg same]
    split <;> simp only [update_of_ne same]

variable {page : Nat}

theorem Pipes.pages_closed {pipes : Pipes} (pipe : Pipe)
    (pages : ∀ q, pageAfter q pipes.events = some (pipes.pipe q).isSome) (there : (pipes.pipe page).isSome = true) (q : Nat) :
    pageAfter q (pipes.closed page pipe).events = some ((pipes.closed page pipe).pipe q).isSome := by
  unfold Pipes.closed
  by_cases same : q = page
  · subst same
    have taken := pages q
    rw [there] at taken
    split
    next =>
      simp only [update_self]
      exact pageAfter_kfree_self taken
    next =>
      simp only [update_self]
      exact taken
  · split
    next =>
      simp only [update_of_ne same]
      rw [pageAfter, if_neg (Ne.symm same)]
      exact pages q
    next =>
      simp only [update_of_ne same]
      exact pages q

variable {pipe : Pipe}

theorem Pipes.open_closed {pipes : Pipes}
    (open_ : ∀ q other, pipes.pipe q = some other → other.readopen = true ∨ other.writeopen = true)
    (q : Nat) (other : Pipe) (there : (pipes.closed page pipe).pipe q = some other) :
    other.readopen = true ∨ other.writeopen = true := by
  unfold Pipes.closed at there
  by_cases same : q = page
  · subst same
    split at there
    next =>
      simp only [update_self] at there
      cases there
    next some =>
      simp only [update_self] at there
      obtain rfl := Option.some.inj there
      cases read : pipe.readopen with
      | true => exact .inl rfl
      | false =>
        rw [read] at some
        exact .inr (by simpa using some)
  · split at there
    · simp only [update_of_ne same] at there
      exact open_ q other there
    · simp only [update_of_ne same] at there
      exact open_ q other there

theorem FileInv.closePipe (files : FileInv s count) (type : (s.ftable f).type = .pipe)
    (there : s.pipes.pipe (s.ftable f).pipe = some pipe) :
    FileInv { closedFile s f with
      pipes := s.pipes.closed (s.ftable f).pipe (pipe.close (s.ftable f).writable) } (update count f 0) := by
  obtain ⟨_, same, isOpen⟩ := files.isOpen type
  obtain rfl := some.inj (same.symm.trans there)
  refine ⟨files.refs_setFile _, fun q writable => ?_, Pipes.open_closed files.open_,
    Pipes.pages_closed _ files.pages (by rw [there]; rfl)⟩
  have total := isEnd_setFile s f (s.ftable f).closed q writable
  rw [files.ends, File.isEnd_closed, add_zero] at total
  refine Eq.trans ?_ (Pipes.openEnd_closed ..).symm
  change (∑ g, (update s.ftable f (s.ftable f).closed g).isEnd q writable) = _
  by_cases page : q = (s.ftable f).pipe
  · subst page
    rw [if_pos rfl, Pipe.isOpen_close]
    rw [there, openEnd] at total
    by_cases end_ : writable = (s.ftable f).writable
    · rw [if_pos end_]
      rw [end_, isOpen, File.isEnd, if_pos ⟨type, rfl, rfl⟩] at total
      rw [end_]
      exact add_right_cancel total
    · rw [if_neg end_]
      rwa [File.isEnd, if_neg fun both => end_ both.2.2.symm, add_zero] at total
  · rw [if_neg page]
    rwa [File.isEnd, if_neg fun both => page both.2.1.symm, add_zero] at total

theorem wp_filecloseNew (type : (s.ftable f).type = .none) (ref : (s.ftable f).ref = 1) :
    wp (fileclose f) (fun _ t => t = closedFile s f) (fun _ => False) s := by
  unfold fileclose
  rw [wp_bind, wp_getFile, ref, if_neg (by decide), if_neg (by decide), wp_bind, wp_setFile, type]
  exact wp_pure.mpr rfl

theorem wp_pipeclose {writable : Bool} (there : s.pipes.pipe page = some pipe) :
    wp (pipeclose page writable) (fun _ t => t = { s with pipes := s.pipes.closed page (pipe.close writable) }) stop s := by
  unfold pipeclose Pipes.closed
  rw [wp_bind, wp_get, there]
  dsimp only
  split
  · rw [kfreePipe, wp_modify]
  · rw [setPipe, wp_modify]

/-- What a step of a call on files leaves, `count f` being the references to `f` after it. -/
structure FileStep (s t : State) (count : Fin NFILE → Nat) : Prop where
  inv : Inv t 0 ∅
  files : FileInv t count
  procs : t.procs = s.procs
  returned : Returned s t
  covered : Covered s 0 → Covered t 0 ∧ s.nodes.Drift t.nodes

theorem FileStep.refl (inv : Inv s 0 ∅) (files : FileInv s count) : FileStep s s count :=
  ⟨inv, files, rfl, .refl s, fun covered => ⟨covered, .refl _⟩⟩

theorem FileStep.trans {count' : Fin NFILE → Nat} (first : FileStep s t count) (second : FileStep t u count') :
    FileStep s u count' where
  inv := second.inv
  files := second.files
  procs := second.procs.trans first.procs
  returned := first.returned.trans second.returned
  covered := fun covered => by
    obtain ⟨covered', drift⟩ := first.covered covered
    obtain ⟨covered'', drift'⟩ := second.covered covered'
    exact ⟨covered'', drift.trans drift'⟩

theorem wp_fileclose (inv : Inv s 0 ∅) (files : FileInv s count) (counted : 0 < count f) :
    wp (fileclose f) (fun _ t => FileStep s t (update count f (count f - 1))) (fun _ => False) s := by
  unfold fileclose
  rw [wp_bind, wp_getFile, files.refs, if_neg (by omega)]
  split
  next more =>
    refine wp_setFile.mpr ⟨inv.withRef _ (by omega), files.withRef _, rfl, ⟨rfl, rfl, .refl ..⟩, fun covered => ?_⟩
    exact ⟨(Rebound.withRef s f _ 0).covered covered, .refl _⟩
  next last =>
    have one : count f - 1 = 0 := by omega
    rw [wp_bind, wp_setFile, one]
    cases type : (s.ftable f).type with
    | none =>
      have other : (s.ftable f).type ≠ .inode := by rw [type]; decide
      refine wp_pure.mpr ⟨inv.close other, files.close (by rw [type]; decide), rfl, ⟨rfl, rfl, .refl ..⟩, fun covered => ?_⟩
      exact ⟨(Rebound.close 0 other).covered covered, .refl _⟩
    | pipe =>
      have other : (s.ftable f).type ≠ .inode := by rw [type]; decide
      obtain ⟨pipe, there, -⟩ := files.isOpen type
      refine wp_mono (wp_pipeclose there) ?_ fun _ none => none
      rintro _ t rfl
      refine ⟨(inv.close other).same rfl rfl rfl rfl rfl, files.closePipe type there, rfl, ⟨rfl, rfl, .refl ..⟩, fun covered => ?_⟩
      exact ⟨(Rebound.close 0 other).covered covered, .refl _⟩
    | inode =>
      rw [wp_bind, wp_beginOp]
      refine wp_seq (wp_iput (inv.closeInode type).begun (succ_pos _)) ?_ ?_
      · exact fun _ stopped => absurd stopped.2 (Finset.notMem_empty _)
      rintro _ t ⟨-, inv', frame, puts⟩
      refine wp_endOp.mpr ⟨inv'.ended, ?_, frame.procs, ⟨frame.sb, frame.returned.outstanding, frame.returned.trace⟩,
        fun covered => ?_⟩
      · exact ((files.close (by rw [type]; decide)).same frame.ftable frame.pipes).ended
      · obtain ⟨covered', nodes⟩ := puts ((Rebound.closeInode 0 type).covered covered).begun
        refine ⟨covered'.ended, ?_⟩
        change s.nodes.Drift t.nodes
        rw [nodes]
        exact Nodes.drift_reap ..

end Files

section Slots

variable {fd : Fin NOFILE}

def slotRef (slot : Option (Fin NFILE)) (f : Fin NFILE) : Nat := if slot = some f then 1 else 0

def Proc.slots (proc : Proc) (f : Fin NFILE) : Nat := ∑ fd, slotRef (proc.ofile fd) f

def slots (s : State) (f : Fin NFILE) : Nat := ∑ p, (s.procs p).slots f

def withSlot (s : State) (p : Fin NPROC) (fd : Fin NOFILE) (slot : Option (Fin NFILE)) : State :=
  { s with procs := update s.procs p { s.procs p with ofile := update (s.procs p).ofile fd slot } }

theorem wp_setSlot {slot : Option (Fin NFILE)} :
    wp (setProc p { s.procs p with ofile := update (s.procs p).ofile fd slot }) post stop s ↔
      post () (withSlot s p fd slot) := wp_of_ok rfl

theorem Inv.withSlot (inv : Inv s temps locks) (slot : Option (Fin NFILE)) : Inv (withSlot s p fd slot) temps locks :=
  inv.setOfile _

theorem Rebound.withSlot (s : State) (p : Fin NPROC) (fd : Fin NOFILE) (slot : Option (Fin NFILE))
    (temps : Multiset (Fin NINODE)) : Rebound s (withSlot s p fd slot) temps temps := .setProc fun _ => rfl

theorem slots_withSlot (s : State) (p : Fin NPROC) (fd : Fin NOFILE) (slot : Option (Fin NFILE)) (g : Fin NFILE) :
    slots (withSlot s p fd slot) g + slotRef ((s.procs p).ofile fd) g = slots s g + slotRef slot g := by
  have inner := sum_update (s.procs p).ofile fd slot fun slot => slotRef slot g
  have outer := sum_update s.procs p { s.procs p with ofile := update (s.procs p).ofile fd slot }
    fun proc => proc.slots g
  change slots (withSlot s p fd slot) g + (∑ fd, slotRef ((s.procs p).ofile fd) g) =
    slots s g + ∑ i, slotRef (update (s.procs p).ofile fd slot i) g at outer
  omega

theorem slotRef_self (f : Fin NFILE) : slotRef (some f) f = 1 := if_pos rfl

theorem slotRef_none (f : Fin NFILE) : slotRef none f = 0 := rfl

theorem slotRef_of_ne {g : Fin NFILE} (apart : g ≠ f) : slotRef (some f) g = 0 :=
  if_neg fun same => apart (some.inj same).symm

theorem slots_open (free : (s.procs p).ofile fd = none) :
    slots (withSlot s p fd (some f)) = update (slots s) f (slots s f + 1) := by
  funext g
  have total := slots_withSlot s p fd (some f) g
  rw [free, slotRef_none] at total
  by_cases same : g = f
  · rw [same, slotRef_self] at total
    rw [same, update_self, ← total, add_zero]
  · rw [slotRef_of_ne same] at total
    rw [update_of_ne same]
    omega

theorem slots_close (taken : (s.procs p).ofile fd = some f) :
    slots (withSlot s p fd none) = update (slots s) f (slots s f - 1) := by
  funext g
  have total := slots_withSlot s p fd none g
  rw [taken, slotRef_none, add_zero] at total
  by_cases same : g = f
  · rw [same, slotRef_self] at total
    rw [same, update_self, ← total, Nat.add_sub_cancel]
  · rw [slotRef_of_ne same] at total
    rw [update_of_ne same]
    omega

theorem slots_pos (taken : (s.procs p).ofile fd = some f) : 0 < slots s f := by
  have inner := le_sum (fun fd => slotRef ((s.procs p).ofile fd) f) fd
  have outer := le_sum (fun p => (s.procs p).slots f) p
  simp only [taken, slotRef_self] at inner
  exact inner.trans outer

theorem wp_argfd {n : Nat} : wp (argfd p n) (fun r t => t = s ∧ ∀ fd f, r = some (fd, f) → (s.procs p).ofile fd = some f)
    stop s := by
  unfold argfd
  rw [wp_bind, wp_getProc]
  split
  next inside =>
    refine wp_pure.mpr ⟨rfl, fun fd f same => ?_⟩
    obtain ⟨g, there, both⟩ := map_eq_some_iff.mp same
    obtain ⟨rfl, rfl⟩ := Prod.mk.inj both
    exact there
  next => exact wp_pure.mpr ⟨rfl, fun _ _ wrong => nomatch wrong⟩

theorem wp_fdalloc : wp (fdalloc p f) (fun r t =>
    match r with
    | some fd => (s.procs p).ofile fd = none ∧ t = withSlot s p fd (some f)
    | none => t = s ∧ ∀ fd, (s.procs p).ofile fd ≠ none) stop s := by
  unfold fdalloc
  rw [wp_bind, wp_getProc]
  split
  next fd found =>
    have free := find?_some found
    rw [wp_bind, wp_setProc, wp_pure]
    exact ⟨isNone_iff_eq_none.mp free, rfl⟩
  next missing =>
    refine wp_pure.mpr ⟨rfl, fun fd => ?_⟩
    simpa using find?_eq_none.mp missing fd (mem_finRange fd)

end Slots

end Xv6.Fs
