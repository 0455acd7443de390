import Xv6.Fs.FileCalls

/-! What `fork` and `exit` do to the files and to the current directories. -/

namespace Xv6.Fs
open Lib Function List Multiset

variable {s t : State} {p : Fin NPROC}

section Cwd

variable {temps : Multiset (Fin NINODE)} {locks : Finset (Fin NINODE)} {k : Fin NINODE}

def withCwd (s : State) (p : Fin NPROC) (cwd : Option (Fin NINODE)) : State :=
  { s with procs := update s.procs p { s.procs p with cwd := cwd } }

theorem wp_setCwd {post : Unit → State → Prop} {stop : Stop → Prop} {cwd : Option (Fin NINODE)} :
    wp (setProc p { s.procs p with cwd := cwd }) post stop s ↔ post () (withCwd s p cwd) := wp_of_ok rfl

theorem slots_withCwd (s : State) (p : Fin NPROC) (cwd : Option (Fin NINODE)) : slots (withCwd s p cwd) = slots s := by
  funext f
  have total := sum_update s.procs p { s.procs p with cwd := cwd } fun proc => proc.slots f
  exact Nat.add_right_cancel total

def cwdRef : Option (Fin NINODE) → Multiset (Fin NINODE)
  | some k => {k}
  | none => 0

theorem holds_eq_count (proc : Proc) (k : Fin NINODE) : proc.holds k = (cwdRef proc.cwd).count k := by
  cases cwd : proc.cwd with
  | none => rw [Proc.holds, cwd, if_neg (by simp), cwdRef, count_zero]
  | some l =>
    rw [Proc.holds, cwd, cwdRef, Multiset.count_singleton]
    simp only [Option.some.injEq, eq_comm]

theorem Rebound.setCwd (s : State) (p : Fin NPROC) (new : Option (Fin NINODE)) (temps : Multiset (Fin NINODE)) :
    Rebound s (withCwd s p new) (cwdRef new + temps) (cwdRef (s.procs p).cwd + temps) := by
  refine .setProc fun l => ?_
  rw [holds_eq_count, holds_eq_count, count_add, count_add]
  exact Nat.add_left_comm ..

variable {new : Option (Fin NINODE)}

theorem Inv.setCwd (inv : Inv s (cwdRef new + temps) locks)
    (allocated : ∀ k, new = some k → (s.dinode (s.icache k).inum).type ≠ 0) :
    Inv (withCwd s p new) (cwdRef (s.procs p).cwd + temps) locks := by
  refine inv.setProc (fun l => ?_) allocated
  rw [holds_eq_count, holds_eq_count, count_add, count_add]
  exact Nat.add_left_comm ..

theorem Inv.cwd_ref (inv : Inv s temps locks) (here : (s.procs p).cwd = some k) : 0 < (s.icache k).ref := by
  have := inv.refs.refs k
  have := held_of_cwd here
  omega

theorem wp_iputCwd (new : Option (Fin NINODE)) (inv : Inv s (cwdRef new) ∅) (here : (s.procs p).cwd = some k)
    (allocated : ∀ l, new = some l → (s.dinode (s.icache l).inum).type ≠ 0) (op : 0 < s.outstanding) :
    wp (iput k) (fun _ t => t.procs = s.procs ∧ Inv (withCwd t p new) 0 ∅ ∧ Frame (withCwd s p new) (withCwd t p new) 0 ∧
      (Covered s (cwdRef new) → Covered (withCwd t p new) 0 ∧ s.nodes.Drift t.nodes)) (fun _ => False) s := by
  have ref := inv.cwd_ref here
  have rebound := Rebound.setCwd s p new 0
  have moved : Inv (withCwd s p new) (cwdRef (s.procs p).cwd + 0) ∅ := Inv.setCwd (by rwa [add_zero]) allocated
  rw [here, add_zero, add_zero] at rebound
  rw [here, add_zero, cwdRef, ← cons_zero] at moved
  refine wp_mono (wp_iputPut inv.disk (inv.cache.range k ref).2 (fun valid => (inv.cache.cached k ref valid).1) op) ?_ ?_
  · rintro _ t ⟨-, put⟩
    have procs : t.procs = s.procs := by
      obtain ⟨_, _, _, rfl, -⟩ := put
      rfl
    have after : { t with procs := update s.procs p { s.procs p with cwd := new } } = withCwd t p new := by
      rw [withCwd, procs]
    have put' := put.procs (update s.procs p { s.procs p with cwd := new })
    rw [after] at put'
    obtain ⟨inv', frame, puts⟩ := put'.spec moved (Finset.notMem_empty k)
    refine ⟨procs, inv', frame, fun covered => ?_⟩
    obtain ⟨covered', nodes⟩ := puts (rebound.covered covered)
    refine ⟨covered', ?_⟩
    change s.nodes.Drift (withCwd t p new).nodes
    rw [nodes]
    exact Nodes.drift_reap ..
  · exact fun e stopped => absurd ((inv.refs.lock k).mp stopped.2) (Finset.notMem_empty k)

theorem wp_leaveCwd (rest : AtRest s) (here : (s.procs p).cwd = some k) (inv : Inv t (cwdRef new) ∅)
    (frame : Frame (begun s) t 0) (allocated : ∀ l, new = some l → (t.dinode (t.icache l).inum).type ≠ 0)
    (closed : new = none → ∀ fd, (s.procs p).ofile fd = none)
    (covers : Covered s 0 → Covered t (cwdRef new) ∧ t.nodes = s.nodes) :
    wp (do
        iput k
        endOp
        let proc ← getProc p
        setProc p { proc with cwd := new }) (fun _ u => Done s u Nodes.Drift) (fun _ => False) t := by
  have here' : (t.procs p).cwd = some k := by rw [frame.procs]; exact here
  refine wp_then (wp_iputCwd new inv here' allocated frame.op) ?_
  rintro _ u ⟨procs, inv', frame', puts⟩
  rw [wp_bind, wp_endOp, wp_bind, wp_getProc, wp_setCwd]
  have procs' : u.procs = s.procs := procs.trans frame.procs
  refine ⟨⟨inv'.ended, ?_, fun q dead fd => ?_⟩, ?_, fun covered => ?_⟩
  · have same : slots (ended u) = slots s := slots_congr procs'
    rw [slots_withCwd, same]
    exact (rest.files.same frame.ftable frame.pipes).same frame'.ftable frame'.pipes
  · change (update u.procs p _ q).cwd = _ at dead
    change (update u.procs p _ q).ofile fd = _
    by_cases same : q = p
    · rw [same, update_self] at dead ⊢
      change (u.procs p).ofile fd = none
      rw [procs']
      exact closed dead fd
    · rw [update_of_ne same, procs'] at dead ⊢
      exact rest.idle q dead fd
  · refine ⟨frame'.sb.trans frame.sb, ?_, ?_⟩
    · have both : u.outstanding = (begun s).outstanding := frame'.outstanding.trans frame.outstanding
      exact congrArg (· - 1) both
    · have first : Traced false true s.trace (begun s).trace := .event rfl
      exact ((first.trans frame.trace).trans frame'.trace).trans (.event rfl)
  · obtain ⟨covered', nodes⟩ := covers covered
    obtain ⟨covered'', drift⟩ := puts covered'
    rw [nodes] at drift
    exact ⟨covered''.ended, drift⟩

end Cwd

variable {done : List (Fin NOFILE)} {fd : Fin NOFILE}

variable {u : State} {cwd : Fin NINODE} {f : Fin NFILE}

section Fork

variable {child : Fin NPROC}

structure Forked (s t : State) (p child : Fin NPROC) (done : List (Fin NOFILE)) : Prop where
  inv : Inv t 0 ∅
  files : FileInv t (slots t)
  rebound : Rebound s t 0 0
  outstanding : t.outstanding = s.outstanding
  trace : t.trace = s.trace
  others : ∀ q, q ≠ child → t.procs q = s.procs q
  cwd : (t.procs child).cwd = none
  ofile : ∀ fd, (t.procs child).ofile fd = if fd ∈ done then (s.procs p).ofile fd else none

theorem Rebound.trans {temps temps' temps'' : Multiset (Fin NINODE)} (first : Rebound s t temps temps')
    (second : Rebound t u temps' temps'') : Rebound s u temps temps'' where
  sb := second.sb.trans first.sb
  disk := second.disk.trans first.disk
  icache := second.icache.trans first.icache
  counts := fun k => (second.counts k).trans (first.counts k)

theorem Forked.slot (forked : Forked s t p child done)
    (fresh : fd ∉ done) (taken : (s.procs p).ofile fd = some f) :
    Forked s (withSlot (withRef t f (slots t f + 1)) child fd (some f)) p child (done ++ [fd]) := by
  have free : ((withRef t f (slots t f + 1)).procs child).ofile fd = none := by
    change (t.procs child).ofile fd = none
    rw [forked.ofile, if_neg fresh]
  have same : slots (withRef t f (slots t f + 1)) = slots t := slots_congr rfl
  refine ⟨?_, ?_, ?_, forked.outstanding, forked.trace, fun q apart => ?_, ?_, fun i => ?_⟩
  · exact (forked.inv.withRef (slots t f + 1) fun wrong => nomatch wrong).withSlot _
  · rw [slots_open free, same]
    exact (forked.files.withRef _).same rfl rfl
  · exact forked.rebound.trans ((Rebound.withRef ..).trans (.withSlot ..))
  · change update t.procs child _ q = _
    rw [update_of_ne apart, forked.others q apart]
  · change (update t.procs child _ child).cwd = none
    rw [update_self]
    exact forked.cwd
  · change (update t.procs child _ child).ofile i = _
    rw [update_self]
    change update (t.procs child).ofile fd (some f) i = _
    by_cases here : i = fd
    · rw [here, update_self, if_pos (by simp), taken]
    · rw [update_of_ne here, forked.ofile]
      simp only [List.mem_append, List.mem_singleton, here, or_false]

theorem Forked.none (forked : Forked s t p child done)
    (free : (s.procs p).ofile fd = none) : Forked s t p child (done ++ [fd]) := by
  refine { forked with ofile := fun i => ?_ }
  rw [forked.ofile]
  by_cases here : i = fd
  · rw [here, free, ite_self, ite_self]
  · simp only [List.mem_append, List.mem_singleton, here, or_false]

theorem wp_fork (rest : AtRest s) (here : (s.procs p).cwd = some cwd) (dead : (s.procs child).cwd = none) :
    wp (fork p child) (fun _ t => Done s t Nodes.Drift) Stop.Pathless s := by
  have apart : p ≠ child := by
    rintro rfl
    rw [here] at dead
    cases dead
  unfold fork
  rw [wp_bind, wp_getProc]
  have start : Forked s s p child [] :=
    ⟨rest.inv, rest.files, .of_same rfl rfl rfl rfl rfl 0, rfl, rfl, fun _ _ => rfl, dead,
      fun fd => by rw [rest.idle child dead, if_neg (by simp)]⟩
  refine wp_then (wp_forM (fun done t => Forked s t p child done) (finRange NOFILE) ?_ start) ?_
  · intro done fd others whole t forked
    have fresh : fd ∉ done := by
      have nodup := nodup_finRange NOFILE
      rw [whole, nodup_append] at nodup
      exact fun member => nodup.2.2 fd member fd (mem_cons_self ..) rfl
    split
    next free => exact wp_pure.mpr (forked.none free)
    next f taken =>
      have there : (t.procs p).ofile fd = some f := by rw [forked.others p apart, taken]
      refine wp_then (wp_filedup forked.inv forked.files (slots_pos there)) ?_
      rintro _ u ⟨rfl, -, -⟩
      rw [wp_bind, wp_getProc, wp_setSlot]
      exact forked.slot fresh taken
  · intro _ t forked
    have here' : (t.procs p).cwd = some cwd := by rw [forked.others p apart, here]
    rw [here]
    refine wp_then (wp_idup forked.inv (forked.inv.cwd_ref here')) ?_
    rintro k u ⟨rfl, inv, quiet, -⟩
    have none : (u.procs child).cwd = none := by rw [quiet.procs, forked.cwd]
    have rebound := Rebound.setCwd u child (some k) 0
    have allocated : (u.dinode (u.icache k).inum).type ≠ 0 := by
      refine inv.refs.allocated k ?_
      rw [quiet.held_eq]
      exact held_of_cwd here'
    rw [wp_bind, wp_getProc, wp_setCwd]
    rw [none] at rebound
    have inv' : Inv (withCwd u child (some k)) (cwdRef (u.procs child).cwd + 0) ∅ := Inv.setCwd inv fun l same => by
      obtain rfl := Option.some.inj same
      exact allocated
    rw [none] at inv'
    refine ⟨⟨inv', ?_, fun q dead fd => ?_⟩, ?_, fun covered => ?_⟩
    · rw [slots_withCwd, slots_congr quiet.procs]
      exact forked.files.same quiet.ftable quiet.pipes
    · change (update u.procs child _ q).cwd = _ at dead
      change (update u.procs child _ q).ofile fd = _
      by_cases same : q = child
      · rw [same, update_self] at dead
        cases dead
      · rw [update_of_ne same, quiet.procs, forked.others q same] at dead ⊢
        exact rest.idle q dead fd
    · exact ⟨quiet.sb.trans forked.rebound.sb, quiet.outstanding.trans forked.outstanding,
        .of_eq (quiet.silent.trans forked.trace)⟩
    · have covered' := (forked.rebound.covered covered).quiet quiet
      refine ⟨rebound.covered (covered'.cons k), ?_⟩
      change s.nodes.Drift u.nodes
      rw [quiet.nodes, forked.rebound.nodes]
      exact .refl _

end Fork

section Exit

structure Exiting (s t : State) (p : Fin NPROC) (done : List (Fin NOFILE)) : Prop where
  inv : Inv t 0 ∅
  files : FileInv t (slots t)
  returned : Returned s t
  covered : Covered s 0 → Covered t 0 ∧ s.nodes.Drift t.nodes
  others : ∀ q, q ≠ p → t.procs q = s.procs q
  cwd : (t.procs p).cwd = (s.procs p).cwd
  ofile : ∀ fd ∈ done, (t.procs p).ofile fd = none

theorem Exiting.slot (exiting : Exiting s t p done)
    (taken : (t.procs p).ofile fd = some f) (step : FileStep t u (update (slots t) f (slots t f - 1))) :
    Exiting s (withSlot u p fd none) p (done ++ [fd]) := by
  have here : (u.procs p).ofile fd = some f := by rw [step.procs, taken]
  refine ⟨step.inv.withSlot none, ?_, exiting.returned.trans ⟨step.returned.sb, step.returned.outstanding, step.returned.trace⟩,
    fun covered => ?_, fun q apart => ?_, ?_, fun i member => ?_⟩
  · rw [slots_close here, slots_congr step.procs]
    exact step.files.same rfl rfl
  · obtain ⟨covered', drift⟩ := exiting.covered covered
    obtain ⟨covered'', drift'⟩ := step.covered covered'
    exact ⟨(Rebound.withSlot ..).covered covered'', drift.trans drift'⟩
  · change update u.procs p _ q = _
    rw [update_of_ne apart, step.procs, exiting.others q apart]
  · change (update u.procs p _ p).cwd = _
    rw [update_self, ← exiting.cwd, ← step.procs]
  · change (update u.procs p _ p).ofile i = none
    rw [update_self]
    change update (u.procs p).ofile fd none i = none
    by_cases same : i = fd
    · rw [same, update_self]
    · rw [update_of_ne same, step.procs]
      exact exiting.ofile i ((List.mem_append.mp member).resolve_right fun last => same (List.mem_singleton.mp last))

def exitClose (p : Fin NPROC) (fd : Fin NOFILE) : FsM Unit := do
  let proc ← getProc p
  match proc.ofile fd with
  | none => pure ()
  | some f => do
    fileclose f
    let proc ← getProc p
    setProc p { proc with ofile := update proc.ofile fd none }

def exitLeave (p : Fin NPROC) : FsM Unit := do
  beginOp
  match (← getProc p).cwd with
  | none => throw .fault
  | some cwd => do
    iput cwd
    endOp
    let proc ← getProc p
    setProc p { proc with cwd := none }

theorem exit_eq (p : Fin NPROC) : exit p =
    (if p = initproc then panic "init exiting" else do
      (finRange NOFILE).forM (exitClose p)
      exitLeave p) := rfl

theorem Exiting.wp_exitClose (exiting : Exiting s t p done) (fd : Fin NOFILE) :
    wp (exitClose p fd) (fun _ u => Exiting s u p (done ++ [fd])) (fun _ => False) t := by
  unfold exitClose
  rw [wp_bind, wp_getProc]
  split
  next free =>
    refine wp_pure.mpr { exiting with ofile := fun i member => ?_ }
    obtain earlier | last := mem_append.mp member
    · exact exiting.ofile i earlier
    · rw [List.mem_singleton.mp last, free]
  next f taken =>
    refine wp_then (wp_fileclose exiting.inv exiting.files (slots_pos taken)) fun _ u step => ?_
    rw [wp_bind, wp_getProc, wp_setSlot]
    exact exiting.slot taken step

theorem AtRest.exiting (rest : AtRest s) (p : Fin NPROC) : Exiting s s p [] :=
  ⟨rest.inv, rest.files, .refl s, fun covered => ⟨covered, .refl _⟩, fun _ _ => rfl, rfl, fun _ member => nomatch member⟩

theorem Exiting.rest (exiting : Exiting s t p done) (rest : AtRest s)
    (here : (s.procs p).cwd = some cwd) : AtRest t := by
  refine ⟨exiting.inv, exiting.files, fun q dead fd => ?_⟩
  by_cases same : q = p
  · rw [same, exiting.cwd, here] at dead
    cases dead
  · rw [exiting.others q same] at dead ⊢
    exact rest.idle q dead fd

theorem wp_exitLeave (rest : AtRest s) (here : (s.procs p).cwd = some cwd) (closed : ∀ fd, (s.procs p).ofile fd = none) :
    wp (exitLeave p) (fun _ t => Done s t Nodes.Drift) (fun _ => False) s := by
  unfold exitLeave
  rw [wp_bind, wp_beginOp, wp_bind, wp_getProc, show ((begun s).procs p).cwd = some cwd from here]
  exact wp_leaveCwd rest here rest.inv.begun (Quiet.refl ..).toFrame (fun _ wrong => nomatch wrong) (fun _ => closed)
    fun covered => ⟨covered.begun, rfl⟩

theorem wp_exit (rest : AtRest s) (here : (s.procs p).cwd = some cwd) :
    wp (exit p) (fun _ t => Done s t Nodes.Drift) Stop.Pathless s := by
  rw [exit_eq]
  split
  next => exact wp_panic.mpr (by decide)
  next =>
    refine wp_then (wp_forM (fun done t => Exiting s t p done) (finRange NOFILE) ?_ (rest.exiting p)) ?_
    · intro done fd others whole t exiting
      exact wp_mono (exiting.wp_exitClose fd) (fun _ _ closed => closed) fun _ none => none.elim
    · intro _ t exiting
      have closed : ∀ fd, (t.procs p).ofile fd = none := fun fd => exiting.ofile fd (mem_finRange fd)
      refine wp_mono (wp_exitLeave (exiting.rest rest here) (exiting.cwd.trans here) closed) ?_ fun _ none => none.elim
      intro _ u done
      refine ⟨done.rest, exiting.returned.trans done.returned, fun covered => ?_⟩
      obtain ⟨covered', drift⟩ := exiting.covered covered
      obtain ⟨covered'', drift'⟩ := done.covered covered'
      exact ⟨covered'', drift.trans drift'⟩

end Exit

end Xv6.Fs
