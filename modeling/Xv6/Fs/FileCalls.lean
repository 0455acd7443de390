import Xv6.Fs.FileOps

/-! The system calls on open files and pipes, and what `fork` and `exit` do to them. -/

namespace Xv6.Fs
open Lib Function

structure AtRest (s : State) : Prop where
  inv : Inv s 0 ∅
  files : FileInv s (slots s)
  idle : ∀ p, (s.procs p).cwd = none → ∀ fd, (s.procs p).ofile fd = none

/-- A call was made in `s` and has returned in `t`. -/
structure Done (s t : State) (change : Nodes → Nodes → Prop) : Prop where
  rest : AtRest t
  returned : Returned s t
  covered : Covered s 0 → Covered t 0 ∧ change s.nodes t.nodes

variable {s t : State} {count : Fin NFILE → Nat} {p : Fin NPROC} {fd : Fin NOFILE} {f : Fin NFILE}

section Rest

theorem slots_congr (procs : t.procs = s.procs) : slots t = slots s := by
  unfold slots
  rw [procs]

theorem AtRest.of (rest : AtRest s) (inv : Inv t 0 ∅) (files : FileInv t (slots s)) (procs : t.procs = s.procs) : AtRest t where
  inv := inv
  files := by rw [slots_congr procs]; exact files
  idle := by rw [procs]; exact rest.idle

theorem AtRest.done (rest : AtRest s) : Done s s Nodes.Drift :=
  ⟨rest, .refl s, fun covered => ⟨covered, .refl _⟩⟩

theorem FileStep.done (step : FileStep s t (slots s)) (rest : AtRest s) : Done s t Nodes.Drift :=
  ⟨rest.of step.inv step.files step.procs, step.returned, step.covered⟩

theorem idle_withSlot (idle : ∀ p, (s.procs p).cwd = none → ∀ fd, (s.procs p).ofile fd = none)
    (alive : (s.procs p).cwd ≠ none) (slot : Option (Fin NFILE)) (q : Fin NPROC)
    (dead : ((withSlot s p fd slot).procs q).cwd = none) (i : Fin NOFILE) :
    ((withSlot s p fd slot).procs q).ofile i = none := by
  change (update s.procs p _ q).cwd = none at dead
  change (update s.procs p _ q).ofile i = none
  by_cases same : q = p
  · rw [same, update_self] at dead
    exact absurd dead alive
  · rw [update_of_ne same] at dead ⊢
    exact idle q dead i

end Rest

section Close

variable {cwd : Fin NINODE}

theorem wp_sysDup (rest : AtRest s) (alive : (s.procs p).cwd ≠ none) (n : Nat) :
    wp (sysDup p n) (fun _ t => Done s t Nodes.Drift) Stop.Pathless s := by
  unfold sysDup
  refine wp_then wp_argfd ?_
  rintro (_ | ⟨i, f⟩) t ⟨rfl, taken⟩
  · exact wp_pure.mpr rest.done
  · have pos := slots_pos (taken i f rfl)
    refine wp_then wp_fdalloc ?_
    rintro (_ | fd) u result
    · obtain ⟨rfl, -⟩ := result
      exact wp_pure.mpr rest.done
    · obtain ⟨free, rfl⟩ := result
      have files : FileInv (withSlot t p fd (some f)) (slots t) := rest.files.same rfl rfl
      refine wp_then (wp_filedup (rest.inv.withSlot _) files pos) ?_
      rintro _ u ⟨rfl, inv, files'⟩
      have rebound : Rebound t (withRef (withSlot t p fd (some f)) f (slots t f + 1)) 0 0 :=
        ⟨rfl, rfl, rfl, fun k => ((Rebound.withRef ..).counts k).trans ((Rebound.withSlot ..).counts k)⟩
      refine wp_pure.mpr ⟨⟨inv, ?_, idle_withSlot rest.idle alive _⟩, ⟨rfl, rfl, .refl ..⟩, fun covered => ?_⟩
      · have same : slots (withRef (withSlot t p fd (some f)) f (slots t f + 1)) = slots (withSlot t p fd (some f)) :=
          slots_congr rfl
        rw [same, slots_open free]
        exact files'
      · exact ⟨rebound.covered covered, .refl _⟩

theorem wp_sysClose (rest : AtRest s) (alive : (s.procs p).cwd ≠ none) (n : Nat) :
    wp (sysClose p n) (fun _ t => Done s t Nodes.Drift) Stop.Pathless s := by
  unfold sysClose
  refine wp_then wp_argfd ?_
  rintro (_ | ⟨fd, f⟩) t ⟨rfl, taken⟩
  · exact wp_pure.mpr rest.done
  · have here := taken fd f rfl
    have files : FileInv (withSlot t p fd none) (slots t) := rest.files.same rfl rfl
    rw [wp_bind, wp_getProc, wp_bind, wp_setSlot]
    refine wp_then (wp_fileclose (rest.inv.withSlot none) files (slots_pos here)) ?_
    intro _ u step
    have returned := step.returned
    refine wp_pure.mpr ⟨⟨step.inv, ?_, ?_⟩, ⟨returned.sb, returned.outstanding, returned.trace⟩, fun covered => ?_⟩
    · rw [slots_congr step.procs, slots_close here]
      exact step.files
    · rw [step.procs]
      exact idle_withSlot rest.idle alive _
    · exact step.covered ((Rebound.withSlot ..).covered covered)

end Close

variable {stop : Stop → Prop}

section Content

variable {temps : Multiset (Fin NINODE)} {locks : Finset (Fin NINODE)}
  {k : Fin NINODE}

def withOff (s : State) (f : Fin NFILE) (off : Nat) : State :=
  { s with ftable := Function.update s.ftable f { s.ftable f with off := off } }

theorem wp_setOff {post : Unit → State → Prop} {off : Nat} (ftable : t.ftable = s.ftable) :
    wp (setFile f { s.ftable f with off := off }) post stop t ↔ post () (withOff t f off) := by
  rw [wp_setFile, withOff, ftable]

theorem Inv.withOff (inv : Inv s temps locks) (off : Nat) : Inv (withOff s f off) temps locks :=
  inv.setFile (fun _ => rfl) (fun type => ⟨inv.refs.allocated _ (held_of_file type), inv.refs.writable f type⟩)
    (inv.refs.closed f)

theorem FileInv.withOff (files : FileInv s count) (off : Nat) : FileInv (withOff s f off) count := by
  have after : FileInv (Fs.withOff s f off) (update count f (s.ftable f).ref) := files.setFile fun _ _ => rfl
  rwa [files.refs, update_eq_self] at after

/-- A step that changes only the cache, the offset of a file, or what devices will do. -/
structure Still (s t : State) : Prop where
  sb : t.sb = s.sb
  disk : t.disk = s.disk
  procs : t.procs = s.procs
  outstanding : t.outstanding = s.outstanding
  trace : t.trace = s.trace
  files : ∀ count, FileInv s count → FileInv t count
  covered : Covered s 0 → Covered t 0

theorem Still.refl (s : State) : Still s s := ⟨rfl, rfl, rfl, rfl, rfl, fun _ files => files, id⟩

variable {u : State}

theorem Still.trans (first : Still s t) (second : Still t u) : Still s u where
  sb := second.sb.trans first.sb
  disk := second.disk.trans first.disk
  procs := second.procs.trans first.procs
  outstanding := second.outstanding.trans first.outstanding
  trace := second.trace.trans first.trace
  files := fun count files => second.files count (first.files count files)
  covered := fun covered => second.covered (first.covered covered)

theorem Quiet.still (quiet : Quiet s t 0) : Still s t where
  sb := quiet.sb
  disk := quiet.disk
  procs := quiet.procs
  outstanding := quiet.outstanding
  trace := quiet.silent
  files := fun _ files => files.same quiet.ftable quiet.pipes
  covered := fun covered => covered.quiet quiet

theorem Still.tty (s : State) (tty : List (Option (List UInt8))) : Still s { s with tty := tty } :=
  ⟨rfl, rfl, rfl, rfl, rfl, fun _ files => files.same rfl rfl, id⟩

theorem Still.peer (s : State) (peer : List (Option (List UInt8))) : Still s { s with peer := peer } :=
  ⟨rfl, rfl, rfl, rfl, rfl, fun _ files => files.same rfl rfl, id⟩

theorem Still.withOff (s : State) (f : Fin NFILE) (off : Nat) : Still s (withOff s f off) := by
  have rebound : Rebound s (Fs.withOff s f off) 0 0 := .setFile fun _ => rfl
  exact ⟨rfl, rfl, rfl, rfl, rfl, fun _ files => files.withOff off, rebound.covered⟩

theorem Still.nodes (still : Still s t) : t.nodes = s.nodes := by
  funext x
  rw [State.nodes, still.sb, State.node, State.dinode, still.sb, still.disk]
  rfl

theorem Still.ended (still : Still t u) (returned : Returned s (ended t)) : Returned s (ended u) where
  sb := still.sb.trans returned.sb
  outstanding := by
    rw [← returned.outstanding]
    exact congrArg (· - 1) still.outstanding
  trace := by
    have same : (Fs.ended u).trace = (Fs.ended t).trace := congrArg (Event.endOp :: ·) still.trace
    rw [same]
    exact returned.trace

theorem Still.done (still : Still s t) (rest : AtRest s) (inv : Inv t 0 ∅) : Done s t Nodes.Drift where
  rest := rest.of inv (still.files _ rest.files) still.procs
  returned := ⟨still.sb, still.outstanding, .of_eq still.trace⟩
  covered := fun covered => ⟨still.covered covered, by rw [still.nodes]; exact .refl _⟩

theorem wp_ilockFile (inv : Inv s temps ∅) (type : (s.ftable f).type = .inode) :
    wp (ilock (s.ftable f).ip) (fun _ t => Inv t temps (insert (s.ftable f).ip ∅) ∧ (∀ kept, Quiet s t kept) ∧
      (t.icache (s.ftable f).ip).inum = (s.icache (s.ftable f).ip).inum) (fun _ => False) s := by
  have ref := inv.file_ref type
  refine wp_mono (wp_ilock inv ref) ?_ ?_
  · rintro _ t ⟨-, -, inv', quiet⟩
    have held := held_of_file type
    exact ⟨inv', quiet, ((quiet 0).kept _ (by omega)).1⟩
  · rintro e (⟨-, member⟩ | ⟨-, -, zero⟩)
    · exact Finset.notMem_empty _ member
    · rw [inv.type_nodes ref] at zero
      exact inv.refs.allocated _ (held_of_file type) zero

theorem wp_iunlockFile (inv : Inv s temps (insert k ∅)) :
    wp (iunlock k) (fun _ t => Inv t temps ∅ ∧ ∀ kept, Quiet s t kept) (fun _ => False) s := by
  have unlocked := wp_iunlock inv (Finset.mem_insert_self k ∅)
  rwa [Finset.erase_insert (Finset.notMem_empty k)] at unlocked

theorem wp_filestat (rest : AtRest s) : wp (filestat f) (fun _ t => Still s t ∧ Inv t 0 ∅) Stop.Pathless s := by
  unfold filestat
  rw [wp_bind, wp_getFile]
  split
  next type =>
    refine wp_then (wp_ilockFile rest.inv type) ?_
    rintro _ t ⟨inv, quiet, -⟩
    unfold stati
    rw [wp_bind, wp_bind, wp_getInode, wp_pure]
    refine wp_then (wp_iunlockFile inv) ?_
    rintro _ u ⟨inv', quiet'⟩
    exact wp_pure.mpr ⟨(quiet 0).still.trans (quiet' 0).still, inv'⟩
  next => exact wp_pure.mpr ⟨.refl s, rest.inv⟩

theorem wp_fileread (rest : AtRest s) (n : Nat) : wp (fileread f n) (fun _ t => Still s t ∧ Inv t 0 ∅) Stop.Pathless s := by
  unfold fileread
  rw [wp_bind, wp_getFile]
  split
  next => exact wp_pure.mpr ⟨.refl s, rest.inv⟩
  next =>
    split
    next type =>
      refine wp_then (wp_ilockFile rest.inv type) ?_
      rintro _ t ⟨inv, quiet, -⟩
      refine wp_then (wp_readi inv (Finset.mem_insert_self ..) _ _) ?_
      rintro r u ⟨tty, -⟩
      have ftable : u.ftable = s.ftable := by rw [tty]; exact (quiet 0).ftable
      have inv' : Inv u 0 (insert (s.ftable f).ip ∅) := by rw [tty]; exact inv.setTty _
      have read : Still t u := by rw [tty]; exact .tty ..
      rw [wp_bind, wp_setOff ftable]
      refine wp_then (wp_iunlockFile (inv'.withOff _)) ?_
      rintro _ v ⟨final, quiet'⟩
      exact wp_pure.mpr ⟨(((quiet 0).still.trans read).trans (.withOff ..)).trans (quiet' 0).still, final⟩
    next type =>
      obtain ⟨pipe, there, -⟩ := rest.files.isOpen type
      unfold piperead
      rw [wp_bind, wp_get]
      simp only [there]
      rw [wp_bind, wp_modify, wp_pure]
      exact ⟨.peer .., rest.inv.same rfl rfl rfl rfl rfl⟩
    next => exact wp_panic.mpr (by decide)

theorem Nodes.SameLinks.refl (nodes : Nodes) : nodes.SameLinks nodes := fun _ => ⟨rfl, rfl, fun _ => rfl⟩

theorem wp_writeFile (inv : Inv s temps locks) (locked : k ∈ locks) (op : 0 < s.outstanding)
    (file : (s.icache k).type ≠ T_DIR) (src : List UInt8) (off : Nat) :
    wp (writei k src off) (fun _ t => Inv t temps locks ∧ (∀ kept, Frame s t kept) ∧
        (∀ kept, Covered s kept → Covered t kept) ∧ s.nodes.SameLinks t.nodes)
      (fun e => e = .panic "balloc: out of blocks") s := by
  refine wp_mono (wp_writei inv locked op src off fun dir => absurd dir file) ?_ fun _ stopped => stopped.1
  rintro r t ⟨inv', change, device, accepted, refused⟩
  refine ⟨inv', fun kept => change.frame kept, ?_⟩
  have unchanged : t = s → (∀ kept, Covered s kept → Covered t kept) ∧ s.nodes.SameLinks t.nodes := by
    rintro rfl
    exact ⟨fun _ => id, .refl _⟩
  by_cases dev : (s.icache k).type = T_DEV
  · exact unchanged (device dev)
  by_cases accepts : (s.node (s.icache k).inum).Accepts off src.length
  · have nodes := (accepted dev accepts).2.nodes (change.frame 0).sb (inv.inum_range locked).2
    rw [← inv.nodeAt_eq locked] at nodes
    refine ⟨fun kept covered => covered.setNode (change.frame kept) nodes rfl id, fun x => ?_⟩
    rw [nodes]
    by_cases same : x = (s.icache k).inum
    · rw [same, update_self]
      refine ⟨rfl, rfl, fun dir => absurd dir ?_⟩
      rwa [inv.type_eq locked] at file
    · rw [update_of_ne same]
      exact ⟨rfl, rfl, fun _ => rfl⟩
  · exact unchanged (refused dev accepts).2

theorem wp_filewriteTurn {chunk : List UInt8} (inv : Inv s 0 ∅) (files : FileInv s count)
    (type : (s.ftable f).type = .inode) (writable : (s.ftable f).writable = true) :
    wp (filewriteTurn f chunk) (fun _ t => FileStep s t count ∧ (t.ftable f).type = .inode ∧ (t.ftable f).writable = true)
      Stop.Pathless s := by
  unfold filewriteTurn
  rw [wp_bind, wp_beginOp, wp_bind, wp_getFile]
  refine wp_then (wp_ilockFile (f := f) inv.begun type) ?_
  rintro _ t ⟨inv', quiet, inum⟩
  have locked := Finset.mem_insert_self (s.ftable f).ip ∅
  have file : (t.icache (s.ftable f).ip).type ≠ T_DIR := by
    have here := inv.refs.writable f type writable
    rw [← inv.type_nodes (inv.file_ref type)] at here
    rw [inv'.type_eq locked, nodeAt, (quiet 0).nodes]
    exact inum ▸ here
  refine wp_seq (wp_writeFile inv' locked (by rw [(quiet 0).outstanding]; exact Nat.succ_pos _) file _ _) ?_ ?_
  · rintro e rfl
    decide
  rintro r u ⟨inv'', frame, covers, links⟩
  have ftable : u.ftable = s.ftable := (frame 0).ftable.trans (quiet 0).ftable
  have pipes : u.pipes = s.pipes := (frame 0).pipes.trans (quiet 0).pipes
  have whole : Frame (begun s) u 0 := (quiet 0).toFrame.trans (frame 0)
  rw [wp_bind, show (begun s).ftable = s.ftable from rfl, wp_setOff ftable]
  refine wp_then (wp_iunlockFile (inv''.withOff _)) ?_
  rintro _ v ⟨final, quiet'⟩
  have moved := quiet' 0
  have still : Still u v := (Still.withOff ..).trans moved.still
  have unmoved : (v.ftable f).type = (s.ftable f).type ∧ (v.ftable f).writable = (s.ftable f).writable := by
    rw [moved.ftable, ← ftable]
    simp only [withOff, update_self, and_self]
  rw [wp_bind, wp_endOp, wp_pure]
  refine ⟨⟨final.ended, (still.files _ (files.same ftable pipes)).ended, moved.procs.trans whole.procs,
    still.ended whole.returned, fun covered => ?_⟩, unmoved.1.trans type, unmoved.2.trans writable⟩
  refine ⟨(still.covered (covers 0 (covered.begun.quiet (quiet 0)))).ended, ?_⟩
  change s.nodes.Drift v.nodes
  rw [still.nodes]
  rw [(quiet 0).nodes] at links
  exact .single (.inl links)

theorem wp_filewriteLoop (inv : Inv s 0 ∅) (files : FileInv s count) (type : (s.ftable f).type = .inode)
    (writable : (s.ftable f).writable = true) (fuel : Nat) (src : List UInt8) :
    wp (filewriteLoop f fuel src) (fun _ t => FileStep s t count) Stop.Pathless s := by
  induction fuel generalizing s src with
  | zero => exact wp_pure.mpr (.refl inv files)
  | succ fuel ih =>
    unfold filewriteLoop
    split
    next => exact wp_pure.mpr (.refl inv files)
    next =>
      refine wp_seq (wp_filewriteTurn inv files type writable) (fun _ stopped => stopped) ?_
      rintro r t ⟨written, type', writable'⟩
      split
      next => exact wp_pure.mpr written
      next =>
        split
        next => exact wp_panic.mpr (by decide)
        next =>
          exact wp_mono (ih written.inv written.files type' writable' _) (fun _ _ => written.trans) fun _ stopped => stopped

theorem wp_filewrite (rest : AtRest s) (src : List UInt8) :
    wp (filewrite f src) (fun _ t => Done s t Nodes.Drift) Stop.Pathless s := by
  unfold filewrite
  rw [wp_bind, wp_getFile]
  split
  next => exact wp_pure.mpr rest.done
  next open_ =>
    have writable : (s.ftable f).writable = true := by simpa using open_
    split
    next type =>
      refine wp_seq (wp_filewriteLoop rest.inv rest.files type writable _ _) (fun _ stopped => stopped) ?_
      exact fun whole t written => wp_pure.mpr (written.done rest)
    next type =>
      obtain ⟨pipe, there, -⟩ := rest.files.isOpen type
      unfold pipewrite
      rw [wp_bind, wp_get]
      simp only [there]
      rw [wp_bind, wp_modify, wp_pure]
      exact (Still.peer ..).done rest (rest.inv.same rfl rfl rfl rfl rfl)
    next => exact wp_panic.mpr (by decide)

theorem wp_sysFstat (rest : AtRest s) (n : Nat) : wp (sysFstat p n) (fun _ t => Still s t ∧ Inv t 0 ∅) Stop.Pathless s := by
  unfold sysFstat
  refine wp_then wp_argfd ?_
  rintro (_ | ⟨fd, f⟩) t ⟨rfl, -⟩
  · exact wp_pure.mpr ⟨.refl t, rest.inv⟩
  · exact wp_filestat rest

theorem wp_sysRead (rest : AtRest s) (n size : Nat) :
    wp (sysRead p n size) (fun _ t => Still s t ∧ Inv t 0 ∅) Stop.Pathless s := by
  unfold sysRead
  refine wp_then wp_argfd ?_
  rintro (_ | ⟨fd, f⟩) t ⟨rfl, -⟩
  · exact wp_pure.mpr ⟨.refl t, rest.inv⟩
  · exact wp_fileread rest size

theorem wp_sysWrite (rest : AtRest s) (n : Nat) (src : List UInt8) :
    wp (sysWrite p n src) (fun _ t => Done s t Nodes.Drift) Stop.Pathless s := by
  unfold sysWrite
  refine wp_then wp_argfd ?_
  rintro (_ | ⟨fd, f⟩) t ⟨rfl, -⟩
  · exact wp_pure.mpr rest.done
  · exact wp_filewrite rest src

end Content

section Pipe

variable {f0 f1 : Fin NFILE} {page : Nat}

theorem FileStep.withRef (inv : Inv s 0 ∅) (files : FileInv s count) (type : (s.ftable f).type = .none) :
    FileStep s (withRef s f 1) (update count f 1) where
  inv := inv.withRef 1 fun _ => type
  files := files.withRef 1
  procs := rfl
  returned := ⟨rfl, rfl, .refl ..⟩
  covered := fun covered => ⟨(Rebound.withRef s f 1 0).covered covered, .refl _⟩

def File.pipeEnd (file : File) (page : Nat) (writable : Bool) : File :=
  { file with type := .pipe, readable := !writable, writable := writable, pipe := page }

theorem File.isEnd_pipeEnd (file : File) (page : Nat) (writable : Bool) (q : Nat) (w : Bool) :
    (file.pipeEnd page writable).isEnd q w = if q = page ∧ w = writable then 1 else 0 := by
  unfold isEnd pipeEnd
  simp only [true_and, eq_comm]

theorem File.isEnd_none {file : File} (type : file.type = .none) (q : Nat) (w : Bool) : file.isEnd q w = 0 :=
  if_neg fun both => by rw [type] at both; exact nomatch both.1

theorem File.holds_pipeEnd (file : File) (page : Nat) (writable : Bool) (k : Fin NINODE) :
    (file.pipeEnd page writable).holds k = 0 := if_neg fun both => nomatch both.1

def piped (s : State) (f0 f1 : Fin NFILE) (page : Nat) : State :=
  { s with
    pipes := ⟨Function.update s.pipes.pipe page (some ⟨true, true⟩), .kalloc page :: s.pipes.events⟩
    ftable := Function.update (Function.update s.ftable f0 ((s.ftable f0).pipeEnd page false)) f1
      ((s.ftable f1).pipeEnd page true) }

theorem pages_kalloc {pipes : Pipes} (pages : ∀ q, pageAfter q pipes.events = some (pipes.pipe q).isSome)
    (free : pipes.pipe page = none) (pipe : Pipe) (q : Nat) :
    pageAfter q (.kalloc page :: pipes.events) = some (update pipes.pipe page (some pipe) q).isSome := by
  by_cases same : q = page
  · subst same
    have before := pages q
    rw [free] at before
    rw [update_self]
    exact pageAfter_kalloc_self before
  · rw [update_of_ne same, pageAfter, if_neg (Ne.symm same)]
    exact pages q

theorem FileInv.piped (files : FileInv s count) (apart : f1 ≠ f0) (type0 : (s.ftable f0).type = .none)
    (type1 : (s.ftable f1).type = .none) (free : s.pipes.pipe page = none) : FileInv (piped s f0 f1 page) count where
  refs := fun g => by
    change (update (update s.ftable f0 _) f1 _ g).ref = _
    rw [← files.refs]
    by_cases second : g = f1
    · rw [second, update_self]
      rfl
    · rw [update_of_ne second]
      by_cases first : g = f0
      · rw [first, update_self]
        rfl
      · rw [update_of_ne first]
  ends := fun q w => by
    have first := sum_update s.ftable f0 ((s.ftable f0).pipeEnd page false) fun file => file.isEnd q w
    have second := sum_update (update s.ftable f0 ((s.ftable f0).pipeEnd page false)) f1
      ((s.ftable f1).pipeEnd page true) fun file => file.isEnd q w
    rw [update_of_ne apart] at second
    simp only [File.isEnd_pipeEnd, File.isEnd_none type0, File.isEnd_none type1, files.ends, Nat.add_zero] at first second
    change (∑ g, (update (update s.ftable f0 _) f1 _ g).isEnd q w) =
      openEnd (update s.pipes.pipe page _ q) w
    rw [second, first]
    by_cases same : q = page
    · rw [same, free, update_self]
      cases w <;> simp [openEnd, Pipe.isOpen]
    · simp only [same, false_and, if_false, update_of_ne same, Nat.add_zero]
  open_ := fun q pipe there => by
    change update s.pipes.pipe page _ q = _ at there
    by_cases same : q = page
    · rw [same, update_self] at there
      obtain rfl := Option.some.inj there
      exact .inl rfl
    · rw [update_of_ne same] at there
      exact files.open_ q pipe there
  pages := pages_kalloc files.pages free _

theorem Rebound.piped (apart : f1 ≠ f0) (type0 : (s.ftable f0).type = .none) (type1 : (s.ftable f1).type = .none) :
    Rebound s (piped s f0 f1 page) 0 0 := by
  refine ⟨rfl, rfl, rfl, fun k => ?_⟩
  have first := held_setFile s f0 ((s.ftable f0).pipeEnd page false) k
  have second := held_setFile { s with ftable := update s.ftable f0 ((s.ftable f0).pipeEnd page false) } f1
    ((s.ftable f1).pipeEnd page true) k
  simp only [update_of_ne apart] at second
  rw [File.holds_pipeEnd, File.holds_none (by rw [type0]; decide)] at first
  rw [File.holds_pipeEnd, File.holds_none (by rw [type1]; decide)] at second
  rw [← Nat.add_right_cancel first, ← Nat.add_right_cancel second]
  exact congrArg (· + Multiset.count k 0) (held_congr rfl rfl k)

theorem Inv.piped (inv : Inv s 0 ∅) (apart : f1 ≠ f0) (type0 : (s.ftable f0).type = .none)
    (type1 : (s.ftable f1).type = .none) (ref0 : (s.ftable f0).ref ≠ 0) (ref1 : (s.ftable f1).ref ≠ 0) :
    Inv (piped s f0 f1 page) 0 ∅ := by
  have rebound : Rebound s (Fs.piped s f0 f1 page) 0 0 := .piped apart type0 type1
  refine inv.rebind rebound (fun k positive => ?_) (fun g => ?_) fun g => ?_
  · have := rebound.counts k
    exact inv.refs.allocated k (by omega)
  · change (update (update s.ftable f0 _) f1 _ g).type = _ →
      (update (update s.ftable f0 _) f1 _ g).writable = _ →
      (s.dinode (s.icache (update (update s.ftable f0 _) f1 _ g).ip).inum).type ≠ _
    by_cases second : g = f1
    · rw [second, update_self]
      exact fun wrong => nomatch wrong
    · rw [update_of_ne second]
      by_cases first : g = f0
      · rw [first, update_self]
        exact fun wrong => nomatch wrong
      · rw [update_of_ne first]
        exact inv.refs.writable g
  · change (update (update s.ftable f0 _) f1 _ g).ref = 0 →
      (update (update s.ftable f0 _) f1 _ g).type = _
    by_cases second : g = f1
    · rw [second, update_self]
      exact fun zero => absurd zero ref1
    · rw [update_of_ne second]
      by_cases first : g = f0
      · rw [first, update_self]
        exact fun zero => absurd zero ref0
      · rw [update_of_ne first]
        exact inv.refs.closed g

theorem wp_filecloseOnly (inv : Inv s 0 ∅) (files : FileInv s (update count f 1)) (zero : count f = 0) :
    wp (fileclose f) (fun _ t => FileStep s t count) (fun _ => False) s := by
  have close := wp_fileclose (f := f) inv files (by rw [update_self]; decide)
  have back : update (update count f 1) f (update count f 1 f - 1) = count := by
    rw [update_idem, update_self, Nat.sub_self, ← zero, update_eq_self]
  rwa [back] at close

theorem wp_filecloseBoth {α : Type} {next : FsM α} {post : α → State → Prop} (inv : Inv s 0 ∅)
    (files : FileInv s (update (update count f0 1) f1 1)) (apart : f1 ≠ f0) (zero0 : count f0 = 0)
    (zero1 : count f1 = 0) (rest : ∀ t, FileStep s t count → wp next post stop t) :
    wp (do fileclose f0; fileclose f1; next) post stop s := by
  rw [update_comm apart.symm] at files
  refine wp_then (wp_filecloseOnly inv files ?_) fun _ t first => ?_
  · rw [update_of_ne apart.symm, zero0]
  refine wp_then (wp_filecloseOnly first.inv first.files zero1) fun _ u second => ?_
  exact rest u (first.trans second)

theorem wp_pipealloc (inv : Inv s 0 ∅) (files : FileInv s count) (page : Option Nat)
    (free : ∀ q, page = some q → s.pipes.pipe q = none) :
    wp (pipealloc page) (fun r t =>
        match r with
        | some (f0, f1) => f1 ≠ f0 ∧ count f0 = 0 ∧ count f1 = 0 ∧
          FileStep s t (update (update count f0 1) f1 1)
        | none => FileStep s t count) (fun _ => False) s := by
  unfold pipealloc
  refine wp_then (wp_filealloc inv files) ?_
  rintro (_ | f0) t result
  · obtain ⟨rfl, -⟩ := result
    exact wp_pure.mpr (.refl inv files)
  obtain ⟨rfl, type0, zero0, inv', files'⟩ := result
  have first : FileStep s (withRef s f0 1) (update count f0 1) := .withRef inv files type0
  refine wp_then (wp_filealloc inv' files') ?_
  rintro (_ | f1) t result
  · obtain ⟨rfl, -⟩ := result
    unfold pipeBad
    refine wp_then (wp_filecloseOnly inv' files' zero0) fun _ u closed => ?_
    exact wp_pure.mpr (first.trans closed)
  obtain ⟨rfl, type1, zero1, inv'', files''⟩ := result
  have apart : f1 ≠ f0 := by
    rintro rfl
    rw [update_self] at zero1
    cases zero1
  rw [update_of_ne apart] at zero1
  have both := first.trans (.withRef inv' files' type1)
  cases page with
  | none =>
    exact wp_filecloseBoth inv'' files'' apart zero0 zero1 fun u closed => wp_pure.mpr (both.trans closed)
  | some page =>
    have page_ := free page rfl
    have counts := fun g => files''.refs g
    have ref0 := counts f0
    have ref1 := counts f1
    rw [update_of_ne apart.symm, update_self] at ref0
    rw [update_self] at ref1
    have none0 : ((withRef (withRef s f0 1) f1 1).ftable f0).type = .none := by
      simp only [withRef, update_of_ne apart.symm, update_self]
      exact type0
    have none1 : ((withRef (withRef s f0 1) f1 1).ftable f1).type = .none := by
      simp only [withRef, update_self]
      exact type1
    have made : FileStep (withRef (withRef s f0 1) f1 1) (piped (withRef (withRef s f0 1) f1 1) f0 f1 page)
        (update (update count f0 1) f1 1) :=
      ⟨inv''.piped apart none0 none1 (by omega) (by omega), files''.piped apart none0 none1 page_, rfl,
        ⟨rfl, rfl, .refl ..⟩, fun covered => ⟨(Rebound.piped apart none0 none1).covered covered, .refl _⟩⟩
    unfold kallocPipe
    rw [wp_bind, wp_modify, wp_bind, wp_getFile, wp_bind, wp_setFile, wp_bind, wp_getFile, wp_bind, wp_setFile, wp_pure]
    simp only [update_of_ne apart]
    exact ⟨apart, zero0, zero1, both.trans made⟩

theorem withSlot_undo (free : (s.procs p).ofile fd = none) (slot : Option (Fin NFILE)) :
    withSlot (withSlot s p fd slot) p fd none = s := by
  unfold withSlot
  simp only [update_self, update_idem]
  rw [← free, update_eq_self, update_eq_self]

theorem wp_sysPipe (rest : AtRest s) (alive : (s.procs p).cwd ≠ none) (page : Option Nat)
    (free : ∀ q, page = some q → s.pipes.pipe q = none) :
    wp (sysPipe p page) (fun _ t => Done s t Nodes.Drift) Stop.Pathless s := by
  unfold sysPipe
  refine wp_then (wp_pipealloc rest.inv rest.files page free) ?_
  rintro (_ | ⟨rf, wf⟩) t result
  · exact wp_pure.mpr (FileStep.done result rest)
  obtain ⟨apart, zero0, zero1, made⟩ := result
  have undo : wp (pipeUndo rf wf) (fun _ t => Done s t Nodes.Drift) Stop.Pathless t :=
    wp_filecloseBoth made.inv made.files apart zero0 zero1 fun u closed => wp_pure.mpr ((made.trans closed).done rest)
  refine wp_then wp_fdalloc ?_
  rintro (_ | fd0) u result
  · obtain ⟨rfl, -⟩ := result
    exact undo
  obtain ⟨free0, rfl⟩ := result
  refine wp_then wp_fdalloc ?_
  rintro (_ | fd1) u result
  · obtain ⟨rfl, -⟩ := result
    rw [wp_bind, wp_getProc, wp_bind, wp_setSlot, withSlot_undo free0]
    exact undo
  obtain ⟨free1, rfl⟩ := result
  refine wp_pure.mpr ⟨⟨(made.inv.withSlot _).withSlot _, ?_, ?_⟩, ⟨made.returned.sb, made.returned.outstanding,
    made.returned.trace⟩, fun covered => ?_⟩
  · rw [slots_open free1, slots_open free0, update_of_ne apart, slots_congr made.procs, zero0, zero1]
    exact made.files.same rfl rfl
  · refine idle_withSlot (idle_withSlot ?_ ?_ _) ?_ _
    · rw [made.procs]
      exact rest.idle
    · rw [made.procs]
      exact alive
    · simp only [withSlot, update_self, made.procs]
      exact alive
  · obtain ⟨covered', drift⟩ := made.covered covered
    exact ⟨(Rebound.withSlot ..).covered ((Rebound.withSlot ..).covered covered'), drift⟩

end Pipe

end Xv6.Fs
