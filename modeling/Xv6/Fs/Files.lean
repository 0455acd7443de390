import Xv6.Fs.DirOps

/-! Paths, and the file table: how references to inodes move, and the books of files and pipes. -/

variable {p : Fin NPROC}

variable {s t : State} {k : Fin NINODE}

namespace Xv6.Fs
open Lib

namespace Nodes

def walk (nodes : Nodes) (used : Finset Nat) (parent : Bool) :
    Nat → Nat → List UInt8 → Except Stop (Option (Nat × List UInt8))
  | 0, _, _ => .ok none
  | fuel + 1, x, path =>
    match skipelem path with
    | none => .ok (if parent then none else some (x, []))
    | some (name, rest) =>
      if (nodes x).type = 0 then .error (.panic "ilock: no type")
      else if (nodes x).type ≠ T_DIR then .ok none
      else if parent ∧ rest = [] then .ok (some (x, name))
      else
        match nodes.dirlookup (insert x used) x name with
        | .error e => .error e
        | .ok none => .ok none
        | .ok (some i) => walk nodes used parent fuel ((nodes x).entry i).inum rest

def resolve (nodes : Nodes) (used : Finset Nat) (cwd : Nat) (parent : Bool) (path : List UInt8) :
    Except Stop (Option (Nat × List UInt8)) :=
  if path.head? = some slash then
    if Full used ROOTINO then .error (.panic "iget: no inodes")
    else nodes.walk used parent (path.length + 1) ROOTINO path
  else nodes.walk used parent (path.length + 1) cwd path

end Nodes

section Path

variable {temps : Multiset (Fin NINODE)}

def resolved (r : Option (Fin NINODE × List UInt8)) (temps : Multiset (Fin NINODE)) : Multiset (Fin NINODE) :=
  match r with
  | some (k, _) => k ::ₘ temps
  | none => temps

structure Walked (s t : State) (temps : Multiset (Fin NINODE)) (parent : Bool) (r : Option (Fin NINODE × List UInt8))
    (walk : Except Stop (Option (Nat × List UInt8))) : Prop where
  inv : Inv t (resolved r temps) ∅
  frame : Frame s t temps
  dir : parent = true → ∀ l name, r = some (l, name) → (t.nodes (t.icache l).inum).type = T_DIR
  covered : Covered s temps → Covered t temps ∧ t.nodes = s.nodes ∧
    walk = .ok (r.map fun found => ((t.icache found.1).inum, found.2))

theorem Walked.after {u : State} {parent : Bool} {r : Option (Fin NINODE × List UInt8)}
    {walk walk' : Except Stop (Option (Nat × List UInt8))} (frame : Frame s t temps)
    (covered : Covered s temps → Covered t temps ∧ t.nodes = s.nodes ∧ walk = walk')
    (walked : Walked t u temps parent r walk') : Walked s u temps parent r walk where
  inv := walked.inv
  frame := frame.trans walked.frame
  dir := walked.dir
  covered := fun here => by
    obtain ⟨there, nodes, same⟩ := covered here
    obtain ⟨covered', nodes', result⟩ := walked.covered there
    exact ⟨covered', nodes'.trans nodes, same.trans result⟩

theorem wp_namexFrom (inv : Inv s (k ::ₘ temps) ∅) (op : 0 < s.outstanding) (parent : Bool) (fuel : Nat)
    (path : List UInt8) (enough : path.length < fuel) :
    let walk := s.nodes.walk (s.used temps) parent fuel (s.icache k).inum path
    wp (namexFrom parent fuel k path) (fun r t => Walked s t temps parent r walk)
      (fun e => e.Benign ∧ (Covered s temps → walk = .error e)) s := by
  induction fuel generalizing s k path with
  | zero => exact absurd enough (Nat.not_lt_zero _)
  | succ fuel ih =>
    intro walk
    unfold namexFrom
    split
    next done =>
      have atEnd : walk = .ok (if parent then none else some ((s.icache k).inum, [])) := by
        simp only [walk, Nodes.walk, done]
      split
      next wanted =>
        refine wp_seq (wp_iput inv op) (fun _ stopped => absurd stopped.2 (Finset.notMem_empty k)) ?_
        rintro _ t ⟨-, inv', frame, puts⟩
        refine wp_pure.mpr ⟨inv', frame, fun _ l name some => (nomatch some), fun covered => ?_⟩
        obtain ⟨covered', nodes⟩ := covered.kept puts
        exact ⟨covered', nodes, by rw [atEnd, if_pos wanted]; rfl⟩
      next unwanted =>
        refine wp_pure.mpr ⟨inv, (Quiet.refl s temps).toFrame, fun wanted => absurd wanted unwanted, fun covered => ?_⟩
        exact ⟨covered, rfl, by rw [atEnd, if_neg unwanted]; rfl⟩
    next name rest found =>
      have shorter := skipelem_rest_lt found
      have member := Multiset.mem_cons_self k temps
      refine wp_seq (wp_ilock inv (inv.ref_pos member)) ?_ ?_
      · rintro e (⟨-, taken⟩ | ⟨rfl, -, zero⟩)
        · exact absurd taken (Finset.notMem_empty k)
        · exact ⟨by decide, fun _ => by simp only [walk, Nodes.walk, found, zero, if_true]⟩
      rintro _ t ⟨-, nonzero, inv', quiet⟩
      have locked : k ∈ insert k (∅ : Finset (Fin NINODE)) := Finset.mem_insert_self k ∅
      have unlocked : (insert k (∅ : Finset (Fin NINODE))).erase k = ∅ := by
        rw [Finset.erase_insert (Finset.notMem_empty k)]
      have inum : (t.icache k).inum = (s.icache k).inum := (quiet _).inum member
      have type : (t.icache k).type = (s.nodes (s.icache k).inum).type := by
        rw [inv'.type_eq locked, nodeAt, inum, (quiet temps).nodes]
      have op' : 0 < t.outstanding := by rw [(quiet temps).outstanding]; exact op
      have next : walk = if (s.nodes (s.icache k).inum).type ≠ T_DIR then .ok none
          else if parent ∧ rest = [] then .ok (some ((s.icache k).inum, name))
          else
            match s.nodes.dirlookup (insert (s.icache k).inum (s.used temps)) (s.icache k).inum name with
            | .error e => .error e
            | .ok none => .ok none
            | .ok (some i) => s.nodes.walk (s.used temps) parent fuel ((s.nodes (s.icache k).inum).entry i).inum rest := by
        simp only [walk, Nodes.walk, found, nonzero, if_false]
      -- the end of the two branches that give up
      have gives : ∀ {r}, walk = .ok none → ∀ {u}, Inv u temps ((insert k ∅ : Finset _).erase k) → Frame t u temps →
          (Covered t (k ::ₘ temps) → Covered u temps ∧ u.nodes = t.nodes.reap (t.used temps) (t.icache k).inum) →
          r = none → Walked s u temps parent r walk := by
        rintro r failed u inv'' frame puts rfl
        rw [unlocked] at inv''
        refine ⟨inv'', (quiet temps).toFrame.trans frame, fun _ l name some => (nomatch some), fun covered => ?_⟩
        obtain ⟨covered', nodes⟩ := (covered.quiet (quiet temps)).kept puts
        exact ⟨covered', nodes.trans (quiet temps).nodes, failed⟩
      rw [wp_bind, wp_getInode]
      split
      next file =>
        rw [type] at file
        refine wp_then (wp_iunlockput inv' locked op') ?_
        rintro _ u ⟨inv'', frame, puts⟩
        exact wp_pure.mpr (gives (next.trans (if_pos file)) inv'' frame puts rfl)
      next dir =>
        have isDir : (s.nodes (s.icache k).inum).type = T_DIR := by rw [type] at dir; exact not_not.mp dir
        rw [if_neg (not_not.mpr isDir)] at next
        split
        next last =>
          refine wp_then (wp_iunlock inv' locked) ?_
          rintro _ u ⟨inv'', quiet'⟩
          rw [unlocked] at inv''
          have both : ∀ kept, Quiet s u kept := fun kept => (quiet kept).trans (quiet' kept)
          have inum' := (both _).inum member
          refine wp_pure.mpr ⟨inv'', (both temps).toFrame, ?_, fun covered => ⟨covered.quiet (both temps), (both temps).nodes, ?_⟩⟩
          · rintro - l name' same
            cases same
            rw [inum', (both temps).nodes, isDir]
          · rw [next, if_pos last, Option.map_some, inum']
        next more =>
          rw [if_neg more] at next
          have used : t.used (k ::ₘ temps) = insert (s.icache k).inum (s.used temps) := by
            rw [State.used_cons, inum, (quiet temps).used_eq]
          have lookup := wp_dirlookup inv' locked (by rw [type, isDir]) name
          rw [used, (quiet temps).nodes, inum] at lookup
          refine wp_seq lookup ?_ ?_
          · intro e stopped
            refine ⟨?_, fun _ => by rw [next, stopped]⟩
            obtain rfl | rfl := Nodes.dirlookup_stops stopped <;> decide
          rintro (_ | ⟨l, off⟩) u result
          · obtain ⟨missing, rfl⟩ := result
            refine wp_then (wp_iunlockput inv' locked op') ?_
            rintro _ v ⟨inv'', frame, puts⟩
            exact wp_pure.mpr (gives (by rw [next, missing]) inv'' frame puts rfl)
          · obtain ⟨i, present, -, here, inv'', quiet'⟩ := result
            rw [Multiset.cons_swap] at inv''
            refine wp_then (wp_iunlockput inv'' locked (by rw [quiet'.outstanding]; exact op')) ?_
            rintro _ v ⟨final, frame, puts⟩
            rw [unlocked] at final
            have toLookup : Quiet s u temps := (quiet temps).trans (quiet'.weaken (Multiset.le_cons_self temps k))
            have whole : Frame s v temps := toLookup.toFrame.trans frame.tail
            have start : (v.icache l).inum = ((s.nodes (s.icache k).inum).entry i).inum := by
              rw [frame.inum (Multiset.mem_cons_self l temps), here, nodeAt, inum, (quiet temps).nodes]
            have covered' : Covered s temps → Covered v temps ∧ v.nodes = s.nodes := fun covered => by
              have there := covered.quiet toLookup
              obtain ⟨-, nodes⟩ := (there.cons l).kept puts
              exact ⟨there.same frame.tail nodes, nodes.trans toLookup.nodes⟩
            have same : Covered s temps → walk = v.nodes.walk (v.used temps) parent fuel (v.icache l).inum rest :=
              fun covered => by rw [next, present, (covered' covered).2, whole.used_eq, start]
            have rest' := ih final (by rw [whole.outstanding]; exact op) rest (by omega)
            refine wp_mono rest' ?_ ?_
            · exact fun r w walked => walked.after whole fun covered => ⟨(covered' covered).1, (covered' covered).2, same covered⟩
            · exact fun e stopped => ⟨stopped.1, fun covered => (same covered).trans (stopped.2 (covered' covered).1)⟩

theorem wp_namex (inv : Inv s temps ∅) (op : 0 < s.outstanding) {cwd : Fin NINODE}
    (here : (s.procs p).cwd = some cwd) (parent : Bool) (path : List UInt8) :
    let resolve := s.nodes.resolve (s.used temps) (s.icache cwd).inum parent path
    wp (namex p path parent) (fun r t => Walked s t temps parent r resolve)
      (fun e => e.Benign ∧ (Covered s temps → resolve = .error e)) s := by
  intro resolve
  have ref : 0 < (s.icache cwd).ref := by
    have := inv.refs.refs cwd
    have := held_of_cwd here
    omega
  -- the walk from the start `k`, wherever it is
  have rest : ∀ {k t}, Inv t (k ::ₘ temps) ∅ → Quiet s t temps →
      resolve = s.nodes.walk (s.used temps) parent (path.length + 1) (t.icache k).inum path →
      wp (namexFrom parent (path.length + 1) k path) (fun r t => Walked s t temps parent r resolve)
        (fun e => e.Benign ∧ (Covered s temps → resolve = .error e)) t := by
    intro k t inv' quiet same
    have walk := wp_namexFrom inv' (by rw [quiet.outstanding]; exact op) parent _ path (Nat.lt_succ_self _)
    rw [quiet.nodes, quiet.used_eq, ← same] at walk
    refine wp_mono walk ?_ ?_
    · exact fun r u walked => walked.after quiet.toFrame fun covered => ⟨covered.quiet quiet, quiet.nodes, rfl⟩
    · exact fun e stopped => ⟨stopped.1, fun covered => stopped.2 (covered.quiet quiet)⟩
  unfold namex namexStart
  rw [wp_bind]
  split
  next absolute =>
    have fromRoot : resolve = if Full (s.used temps) ROOTINO then .error (.panic "iget: no inodes")
        else s.nodes.walk (s.used temps) parent (path.length + 1) ROOTINO path := if_pos absolute
    have range : 0 < ROOTINO ∧ ROOTINO < s.sb.ninodes := ⟨by decide, inv.disk.geometry.root⟩
    refine wp_mono (wp_iget inv range) ?_ ?_
    · rintro k t ⟨inv', quiet, inum, room⟩
      exact rest inv' quiet (by rw [fromRoot, if_neg room, inum])
    · rintro e ⟨rfl, full⟩
      exact ⟨by decide, fun _ => fromRoot.trans (if_pos full)⟩
  next relative =>
    rw [wp_bind, wp_get, here]
    refine wp_mono (wp_idup inv ref) ?_ fun _ none => none.elim
    rintro k t ⟨rfl, inv', quiet, inum⟩
    exact rest inv' quiet (by rw [inum]; exact if_neg relative)

end Path

end Xv6.Fs

namespace Xv6.Fs
open Lib Function

variable {file : File}

variable {f : Fin NFILE}

section Rebind

variable {temps temps' : Multiset (Fin NINODE)} {locks : Finset (Fin NINODE)}

def File.holds (file : File) (k : Fin NINODE) : Nat := if file.type = .inode ∧ file.ip = k then 1 else 0

def Proc.holds (proc : Proc) (k : Fin NINODE) : Nat := if proc.cwd = some k then 1 else 0

theorem held_def (s : State) (k : Fin NINODE) :
    held s k = (∑ f, (s.ftable f).holds k) + ∑ p, (s.procs p).holds k := rfl

theorem held_congr (ftable : t.ftable = s.ftable) (procs : t.procs = s.procs) (k : Fin NINODE) :
    held t k = held s k := by
  rw [held, ftable, procs, held]

theorem held_setFile (s : State) (f : Fin NFILE) (file : File) (k : Fin NINODE) :
    held { s with ftable := update s.ftable f file } k + (s.ftable f).holds k = held s k + file.holds k := by
  have total := sum_update s.ftable f file fun file => file.holds k
  rw [held_def, held_def]
  change (∑ g, (update s.ftable f file g).holds k) + (∑ p, (s.procs p).holds k) + _ = _
  omega

theorem held_setProc (s : State) (p : Fin NPROC) (proc : Proc) (k : Fin NINODE) :
    held { s with procs := update s.procs p proc } k + (s.procs p).holds k = held s k + proc.holds k := by
  have total := sum_update s.procs p proc fun proc => proc.holds k
  rw [held_def, held_def]
  change (∑ f, (s.ftable f).holds k) + (∑ q, (update s.procs p proc q).holds k) + _ = _
  omega

/-- References change hands, and nothing else changes that the invariant is about. -/
structure Rebound (s t : State) (temps temps' : Multiset (Fin NINODE)) : Prop where
  sb : t.sb = s.sb
  disk : t.disk = s.disk
  icache : t.icache = s.icache
  counts : ∀ k, held t k + temps'.count k = held s k + temps.count k

theorem Rebound.nodes (rebound : Rebound s t temps temps') : t.nodes = s.nodes := by
  funext x
  rw [State.nodes, rebound.sb, State.node, State.dinode, rebound.sb, rebound.disk]
  rfl

theorem Rebound.covered (rebound : Rebound s t temps temps') (covered : Covered s temps) : Covered t temps' := by
  intro x
  rw [rebound.nodes, rebound.icache]
  simp only [rebound.counts]
  exact covered x

theorem Rebound.of_same (sb : t.sb = s.sb) (disk : t.disk = s.disk) (icache : t.icache = s.icache)
    (ftable : t.ftable = s.ftable) (procs : t.procs = s.procs) (temps : Multiset (Fin NINODE)) :
    Rebound s t temps temps :=
  ⟨sb, disk, icache, fun k => by rw [held_congr ftable procs]⟩

theorem Rebound.setFile
    (refs : ∀ k, file.holds k + temps'.count k = (s.ftable f).holds k + temps.count k) :
    Rebound s { s with ftable := update s.ftable f file } temps temps' :=
  ⟨rfl, rfl, rfl, fun k => by have := held_setFile s f file k; have := refs k; omega⟩

theorem Rebound.setProc {proc : Proc}
    (refs : ∀ k, proc.holds k + temps'.count k = (s.procs p).holds k + temps.count k) :
    Rebound s { s with procs := update s.procs p proc } temps temps' :=
  ⟨rfl, rfl, rfl, fun k => by have := held_setProc s p proc k; have := refs k; omega⟩

theorem Inv.rebind (inv : Inv s temps locks) (rebound : Rebound s t temps temps')
    (allocated : ∀ k, 0 < held t k → (s.dinode (s.icache k).inum).type ≠ 0)
    (writable : ∀ f, (t.ftable f).type = .inode → (t.ftable f).writable = true →
      (s.dinode (s.icache (t.ftable f).ip).inum).type ≠ T_DIR)
    (closed : ∀ f, (t.ftable f).ref = 0 → (t.ftable f).type = .none) : Inv t temps' locks := by
  have dinode : t.dinode = s.dinode := by
    funext x
    rw [State.dinode, rebound.sb, rebound.disk, State.dinode]
  refine ⟨?_, ?_, ?_, ?_, ?_, ?_, ?_, closed⟩
  · rw [rebound.sb, rebound.disk, dinode]
    exact inv.disk
  · rw [rebound.sb, rebound.icache, dinode]
    exact inv.cache
  · intro k
    rw [rebound.icache, rebound.counts, inv.refs.refs]
  · rw [rebound.icache]
    exact inv.refs.lock
  · rw [rebound.icache]
    exact inv.refs.locked
  · rw [rebound.icache, dinode]
    exact allocated
  · rw [rebound.icache, dinode]
    exact writable

theorem Inv.same (inv : Inv s temps locks) (sb : t.sb = s.sb) (disk : t.disk = s.disk) (icache : t.icache = s.icache)
    (ftable : t.ftable = s.ftable) (procs : t.procs = s.procs) : Inv t temps locks := by
  have rebound : Rebound s t temps temps := .of_same sb disk icache ftable procs temps
  refine inv.rebind rebound (fun k positive => ?_) ?_ ?_
  · have := rebound.counts k
    exact inv.refs.allocated k (by omega)
  · rw [ftable]
    exact inv.refs.writable
  · rw [ftable]
    exact inv.refs.closed

theorem Inv.setFile (inv : Inv s temps locks)
    (refs : ∀ k, file.holds k + temps'.count k = (s.ftable f).holds k + temps.count k)
    (opened : file.type = .inode → (s.dinode (s.icache file.ip).inum).type ≠ 0 ∧
      (file.writable = true → (s.dinode (s.icache file.ip).inum).type ≠ T_DIR))
    (closed : file.ref = 0 → file.type = .none) :
    Inv { s with ftable := update s.ftable f file } temps' locks := by
  refine inv.rebind (.setFile refs) (fun k positive => ?_) (fun g => ?_) fun g => ?_
  · by_cases here : file.type = .inode ∧ file.ip = k
    · rw [← here.2]
      exact (opened here.1).1
    · have zero : file.holds k = 0 := if_neg here
      have := held_setFile s f file k
      exact inv.refs.allocated k (by omega)
  · change (update s.ftable f file g).type = _ → (update s.ftable f file g).writable = _ →
      (s.dinode (s.icache (update s.ftable f file g).ip).inum).type ≠ _
    by_cases same : g = f
    · rw [same, update_self]
      exact fun type => (opened type).2
    · rw [update_of_ne same]
      exact inv.refs.writable g
  · change (update s.ftable f file g).ref = 0 → (update s.ftable f file g).type = _
    by_cases same : g = f
    · rw [same, update_self]
      exact closed
    · rw [update_of_ne same]
      exact inv.refs.closed g

theorem Inv.setProc (inv : Inv s temps locks) {proc : Proc}
    (refs : ∀ k, proc.holds k + temps'.count k = (s.procs p).holds k + temps.count k)
    (allocated : ∀ k, proc.cwd = some k → (s.dinode (s.icache k).inum).type ≠ 0) :
    Inv { s with procs := update s.procs p proc } temps' locks := by
  refine inv.rebind (.setProc refs) (fun k positive => ?_) inv.refs.writable inv.refs.closed
  by_cases here : proc.cwd = some k
  · exact allocated k here
  · have zero : proc.holds k = 0 := if_neg here
    have := held_setProc s p proc k
    exact inv.refs.allocated k (by omega)

theorem Inv.setOfile (inv : Inv s temps locks) (ofile : Fin NOFILE → Option (Fin NFILE)) :
    Inv { s with procs := update s.procs p { s.procs p with ofile := ofile } } temps locks :=
  inv.setProc (fun _ => rfl) fun _ cwd => inv.refs.allocated _ (held_of_cwd cwd)

theorem Inv.file_ref (inv : Inv s temps locks) (type : (s.ftable f).type = .inode) :
    0 < (s.icache (s.ftable f).ip).ref := by
  have := inv.refs.refs (s.ftable f).ip
  have := held_of_file type
  omega

end Rebind

def Pipe.isOpen (pipe : Pipe) (writable : Bool) : Bool := if writable then pipe.writeopen else pipe.readopen

/-- `1` if the file is that end of the pipe in `page`. -/
def File.isEnd (file : File) (page : Nat) (writable : Bool) : Nat :=
  if file.type = .pipe ∧ file.pipe = page ∧ file.writable = writable then 1 else 0

def openEnd : Option Pipe → Bool → Nat
  | some pipe, writable => (pipe.isOpen writable).toNat
  | none, _ => 0

def pageAfter (page : Nat) : List PageEvent → Option Bool
  | [] => some false
  | .kalloc q :: earlier =>
    if q = page then (pageAfter page earlier).bind fun taken => if taken then none else some true
    else pageAfter page earlier
  | .kfree q :: earlier =>
    if q = page then (pageAfter page earlier).bind fun taken => if taken then some false else none
    else pageAfter page earlier

/-- The books of the file table, `count f` being the references to `f`. -/
structure FileInv (s : State) (count : Fin NFILE → Nat) : Prop where
  refs : ∀ f, (s.ftable f).ref = count f
  ends : ∀ page writable, (∑ f, (s.ftable f).isEnd page writable) = openEnd (s.pipes.pipe page) writable
  open_ : ∀ page pipe, s.pipes.pipe page = some pipe → pipe.readopen = true ∨ pipe.writeopen = true
  pages : ∀ page, pageAfter page s.pipes.events = some (s.pipes.pipe page).isSome

section Books

variable {count : Fin NFILE → Nat}

theorem FileInv.same (files : FileInv s count) (ftable : t.ftable = s.ftable) (pipes : t.pipes = s.pipes) :
    FileInv t count := by
  refine ⟨?_, ?_, ?_, ?_⟩
  · rw [ftable]
    exact files.refs
  · rw [ftable, pipes]
    exact files.ends
  · rw [pipes]
    exact files.open_
  · rw [pipes]
    exact files.pages

theorem isEnd_setFile (s : State) (f : Fin NFILE) (file : File) (page : Nat) (writable : Bool) :
    (∑ g, (update s.ftable f file g).isEnd page writable) + (s.ftable f).isEnd page writable =
      (∑ g, (s.ftable g).isEnd page writable) + file.isEnd page writable :=
  sum_update s.ftable f file fun file => file.isEnd page writable

theorem FileInv.refs_setFile (files : FileInv s count) (file : File) (g : Fin NFILE) :
    (update s.ftable f file g).ref = update count f file.ref g := by
  by_cases same : g = f
  · rw [same, update_self, update_self]
  · rw [update_of_ne same, update_of_ne same, files.refs]

theorem FileInv.setFile (files : FileInv s count)
    (ends : ∀ page writable, file.isEnd page writable = (s.ftable f).isEnd page writable) :
    FileInv { s with ftable := update s.ftable f file } (update count f file.ref) where
  refs := files.refs_setFile file
  ends := fun page writable => by
    have total := isEnd_setFile s f file page writable
    rw [ends, files.ends] at total
    exact Nat.add_right_cancel total
  open_ := files.open_
  pages := files.pages

theorem FileInv.isOpen (files : FileInv s count) (type : (s.ftable f).type = .pipe) :
    ∃ pipe, s.pipes.pipe (s.ftable f).pipe = some pipe ∧ pipe.isOpen (s.ftable f).writable = true := by
  have one : (s.ftable f).isEnd (s.ftable f).pipe (s.ftable f).writable = 1 := if_pos ⟨type, rfl, rfl⟩
  have total := le_sum (fun g => (s.ftable g).isEnd (s.ftable f).pipe (s.ftable f).writable) f
  rw [files.ends] at total
  change (s.ftable f).isEnd (s.ftable f).pipe (s.ftable f).writable ≤ _ at total
  rw [one] at total
  cases there : s.pipes.pipe (s.ftable f).pipe with
  | none =>
    rw [there] at total
    exact absurd total (Nat.not_succ_le_zero 0)
  | some pipe =>
    rw [there] at total
    refine ⟨pipe, rfl, ?_⟩
    cases closed : pipe.isOpen (s.ftable f).writable with
    | true => rfl
    | false =>
      rw [openEnd, closed] at total
      exact absurd total (Nat.not_succ_le_zero 0)

variable {events : List PageEvent} {page : Nat}

theorem pageAfter_kalloc_self (free : pageAfter page events = some false) :
    pageAfter page (.kalloc page :: events) = some true := by
  rw [pageAfter, if_pos rfl, free]
  rfl

theorem pageAfter_kfree_self (taken : pageAfter page events = some true) :
    pageAfter page (.kfree page :: events) = some false := by
  rw [pageAfter, if_pos rfl, taken]
  rfl

theorem Pipe.isOpen_close (pipe : Pipe) (writable other : Bool) :
    (pipe.close writable).isOpen other = if other = writable then false else pipe.isOpen other := by
  cases writable <;> cases other <;> rfl

end Books

end Xv6.Fs
