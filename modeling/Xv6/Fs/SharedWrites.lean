import Xv6.Fs.Listing

/-! Processes that write through one `struct file`. The loop of `filewrite` gives up the inode lock
after every chunk. -/

namespace Xv6.Fs
open Lib Function List
open Transition (run)

theorem Node.write_write (node : Node) (off : Nat) (first second : List UInt8) :
    (node.write off first).write (off + first.length) second = node.write off (first ++ second) := by
  ext o
  case type => rfl
  case major => rfl
  case minor => rfl
  case nlink => rfl
  case size =>
    simp only [Node.write, length_append]
    omega
  case byte =>
    simp only [Node.write, length_append]
    by_cases before : o < off + first.length
    · rw [if_neg (by omega)]
      by_cases inside : off ≤ o
      · rw [if_pos ⟨inside, before⟩, if_pos (by omega), getD_append _ _ _ _ (by omega)]
      · rw [if_neg (by omega), if_neg (by omega)]
    · rw [if_neg (c := off ≤ o ∧ o < off + first.length) (by omega)]
      by_cases inside : o < off + first.length + second.length
      · rw [if_pos (by omega), if_pos (by omega), getD_append_right _ _ _ _ (by omega), Nat.sub_sub]
      · rw [if_neg (by omega), if_neg (by omega)]

section Turn

variable {s t : State} {f : Fin NFILE} {x : Nat}

structure WritesTo (s : State) (f : Fin NFILE) (x : Nat) : Prop where
  inv : Inv s 0 ∅
  type : (s.ftable f).type = .inode
  writable : (s.ftable f).writable = true
  inum : (s.icache (s.ftable f).ip).inum = x
  file : (s.nodes x).type = T_FILE

/-- The chunk was written at the offset, and the offset moved past it. -/
structure Wrote (s t : State) (f : Fin NFILE) (x : Nat) (chunk : List UInt8) : Prop where
  off : (t.ftable f).off = (s.ftable f).off + chunk.length
  node : t.nodes x = (s.nodes x).write (s.ftable f).off chunk

theorem WritesTo.wp_filewriteTurn (writes : WritesTo s f x) (chunk : List UInt8) :
    wp (filewriteTurn f chunk) (fun r t => WritesTo t f x ∧ (r = none ∨ (r = some chunk.length ∧ Wrote s t f x chunk)))
      Stop.Pathless s := by
  obtain ⟨inv, type, writable, inum, file⟩ := writes
  unfold filewriteTurn
  rw [wp_bind, wp_beginOp, wp_bind, wp_getFile]
  refine wp_then (wp_ilockFile (f := f) inv.begun type) ?_
  rintro _ t ⟨inv', quiet, inum'⟩
  have locked := Finset.mem_insert_self (s.ftable f).ip ∅
  have here : (t.icache (s.ftable f).ip).inum = x := inum'.trans inum
  have same : t.nodes = s.nodes := (quiet 0).nodes
  have node : t.node (t.icache (s.ftable f).ip).inum = s.nodes x := by
    rw [← inv'.nodeAt_eq locked, nodeAt, here, same]
  have kind : (t.icache (s.ftable f).ip).type = T_FILE := by
    rw [inv'.type_eq locked, nodeAt, here, same, file]
  have op : 0 < t.outstanding := by
    rw [(quiet 0).outstanding]
    exact Nat.succ_pos _
  refine wp_seq (wp_writei inv' locked op chunk _ fun dir => absurd (kind.symm.trans dir) (by decide)) ?_ ?_
  · rintro e ⟨rfl, -⟩
    decide
  rintro r u ⟨inv'', change, -, accepted, refused⟩
  have notDev : (t.icache (s.ftable f).ip).type ≠ T_DEV := by
    rw [kind]
    decide
  have frame := change.frame 0
  have ftable : u.ftable = s.ftable := frame.ftable.trans (quiet 0).ftable
  rw [wp_bind, show (begun s).ftable = s.ftable from rfl, wp_setOff ftable]
  refine wp_then (wp_iunlockFile (inv''.withOff _)) ?_
  rintro _ v ⟨final, quiet'⟩
  rw [wp_bind, wp_endOp, wp_pure]
  have held : 0 < held t (s.ftable f).ip := by
    have := held_of_file (s := t) (f := f) (by rw [(quiet 0).ftable]; exact type)
    rwa [(quiet 0).ftable] at this
  have table : v.ftable f = { s.ftable f with off := ((s.ftable f).off + r.getD 0) % 2 ^ 32 } := by
    rw [(quiet' 0).ftable, ← ftable]
    simp only [withOff, update_self]
  have nodes : v.nodes = u.nodes := (quiet' 0).nodes.trans (Still.withOff ..).nodes
  have stays : (v.icache (s.ftable f).ip).inum = x := by
    have first := (frame.kept (s.ftable f).ip (by omega)).1
    have kept : 0 < Fs.held (withOff u f (((s.ftable f).off + r.getD 0) % 2 ^ 32)) (s.ftable f).ip := by
      have := held_of_file (s := withOff u f (((s.ftable f).off + r.getD 0) % 2 ^ 32)) (f := f)
        (by simp only [withOff, update_self, ftable]; exact type)
      simpa only [withOff, update_self, ftable] using this
    exact ((quiet' 0).kept (s.ftable f).ip (by omega)).1.trans (first.trans here)
  have inside : x < t.sb.ninodes := here ▸ (inv'.inum_range locked).2
  by_cases accepts : (s.nodes x).Accepts (s.ftable f).off chunk.length
  · obtain ⟨done, set⟩ := accepted notDev (by rw [node]; exact accepts)
    have written : u.nodes = update t.nodes x ((s.nodes x).write (s.ftable f).off chunk) := by
      rw [node, here] at set
      exact set.nodes frame.sb inside
    have now : (ended v).nodes x = (s.nodes x).write (s.ftable f).off chunk := by
      change v.nodes x = _
      rw [nodes, written, update_self]
    have limit : MAXFILE * BSIZE < 2 ^ 32 := by decide
    have small := accepts.2.2
    refine ⟨⟨final.ended, ?_, ?_, ?_, ?_⟩, .inr ⟨done, ?_, now⟩⟩
    · change (v.ftable f).type = _
      rw [table]
      exact type
    · change (v.ftable f).writable = _
      rw [table]
      exact writable
    · change (v.icache (v.ftable f).ip).inum = x
      rw [table]
      exact stays
    · rw [now]
      exact file
    · change (v.ftable f).off = _
      rw [table, done]
      exact Nat.mod_eq_of_lt (by change _ + chunk.length < _; omega)
  · obtain ⟨failed, rfl⟩ := refused notDev (by rw [node]; exact accepts)
    refine ⟨⟨final.ended, ?_, ?_, ?_, ?_⟩, .inl failed⟩
    · change (v.ftable f).type = _
      rw [table]
      exact type
    · change (v.ftable f).writable = _
      rw [table]
      exact writable
    · change (v.icache (v.ftable f).ip).inum = x
      rw [table]
      exact stays
    · change (v.nodes x).type = _
      rw [nodes, same]
      exact file

end Turn

namespace Shared

/-- A process in the loop of `filewrite`: its call, and the bytes yet to write. -/
structure Writer where
  call : Nat
  rest : List UInt8
  deriving DecidableEq

structure Writers (ι : Type) where
  fs : State
  writer : ι → Option Writer
  -- what each call of `filewrite` is to write
  calls : List (List UInt8)
  -- what was written, in order, and by which call
  chunks : List (Nat × List UInt8)
  failed : Bool

inductive Label (ι : Type) where
  | filewrite (p : ι) (src : List UInt8)
  | turn (p : ι)
  | finish (p : ι)

def Writer.chunk (w : Writer) : List UInt8 := w.rest.take (min w.rest.length filewriteMax)

def Writer.advance (w : Writer) : Writer := { w with rest := w.rest.drop (min w.rest.length filewriteMax) }

section Machine

variable {ι : Type} [DecidableEq ι] (f : Fin NFILE)

/-- A step is a section under the inode lock. -/
def step (s : Writers ι) : Label ι → Option (Writers ι)
  | .filewrite p src =>
    if s.writer p = none ∧ (s.fs.ftable f).writable = true ∧ (s.fs.ftable f).type = .inode then
      some { s with
        writer := Function.update s.writer p (some ⟨s.calls.length, src⟩)
        calls := s.calls ++ [src] }
    else none
  | .turn p =>
    match s.writer p with
    | none => none
    | some w =>
      if w.rest.length = 0 then none
      else
        match (filewriteTurn f w.chunk).run s.fs with
        | .error _ => none
        | .ok (none, fs) => some { s with fs := fs, writer := Function.update s.writer p none, failed := true }
        | .ok (some r, fs) =>
          if r ≠ min w.rest.length filewriteMax then none
          else
            some { s with
              fs := fs
              writer := Function.update s.writer p (some w.advance)
              chunks := s.chunks ++ [(w.call, w.chunk)] }
  | .finish p =>
    match s.writer p with
    | none => none
    | some w => if w.rest.length = 0 then some { s with writer := Function.update s.writer p none } else none

end Machine

def written (chunks : List (Nat × List UInt8)) : List UInt8 := chunks.flatMap Prod.snd

def ofCall (chunks : List (Nat × List UInt8)) (c : Nat) : List UInt8 := (chunks.filter fun e => e.1 = c).flatMap Prod.snd

section Chunks

variable {chunks : List (Nat × List UInt8)} {c d : Nat} {chunk : List UInt8}

theorem written_snoc : written (chunks ++ [(c, chunk)]) = written chunks ++ chunk := by
  simp [written]

theorem ofCall_snoc : ofCall (chunks ++ [(c, chunk)]) d = if d = c then ofCall chunks d ++ chunk else ofCall chunks d := by
  by_cases same : d = c
  · simp [ofCall, filter_append, same]
  · simp [ofCall, filter_append, same, Ne.symm same]

theorem length_written {n : Nat} (known : ∀ e ∈ chunks, e.1 < n) :
    ∑ c ∈ Finset.range n, (ofCall chunks c).length = (written chunks).length := by
  induction chunks using List.reverseRecOn with
  | nil => simp [ofCall, written]
  | append_singleton before last ih =>
    obtain ⟨c, chunk⟩ := last
    have inside : c < n := known (c, chunk) (mem_append_right _ (mem_singleton_self _))
    have split : ∀ d, (ofCall (before ++ [(c, chunk)]) d).length = (ofCall before d).length + if d = c then chunk.length else 0 := by
      intro d
      rw [ofCall_snoc]
      split <;> simp
    rw [Finset.sum_congr rfl fun d _ => split d, Finset.sum_add_distrib, Finset.sum_ite_eq', if_pos (Finset.mem_range.mpr inside),
      ih fun e member => known e (mem_append_left _ member), written_snoc, length_append]

end Chunks

structure Initial {ι : Type} (f : Fin NFILE) (x : Nat) (s : Writers ι) : Prop where
  writes : WritesTo s.fs f x
  writer : ∀ p, s.writer p = none
  calls : s.calls = []
  chunks : s.chunks = []
  failed : s.failed = false

/-- `start` is the file when the writers began, `off` the offset. -/
structure Inv {ι : Type} (f : Fin NFILE) (x : Nat) (start : Node) (off : Nat) (s : Writers ι) : Prop where
  writes : WritesTo s.fs f x
  offset : (s.fs.ftable f).off = off + (written s.chunks).length
  node : (s.chunks = [] ∧ s.fs.nodes x = start) ∨ (s.chunks ≠ [] ∧ s.fs.nodes x = start.write off (written s.chunks))
  active : ∀ p w, s.writer p = some w → s.calls[w.call]? = some (ofCall s.chunks w.call ++ w.rest)
  apart : ∀ p q w v, s.writer p = some w → s.writer q = some v → w.call = v.call → p = q
  known : ∀ e ∈ s.chunks, e.1 < s.calls.length
  complete : ∀ c < s.calls.length,
    (∃ p w, s.writer p = some w ∧ w.call = c) ∨ s.calls[c]? = some (ofCall s.chunks c)

section Invariant

variable {ι : Type} [DecidableEq ι] {f : Fin NFILE} {x off : Nat} {start : Node} {s t : Writers ι} {p : ι}

omit [DecidableEq ι] in
theorem Initial.inv (initial : Initial f x s) : Inv f x (s.fs.nodes x) (s.fs.ftable f).off s where
  writes := initial.writes
  offset := by
    rw [initial.chunks]
    rfl
  node := .inl ⟨initial.chunks, rfl⟩
  active := fun p w busy => absurd ((initial.writer p).symm.trans busy) (fun wrong => nomatch wrong)
  apart := fun p _ w _ busy => absurd ((initial.writer p).symm.trans busy) (fun wrong => nomatch wrong)
  known := by
    rw [initial.chunks]
    exact fun e none => absurd none not_mem_nil
  complete := by
    rw [initial.calls]
    exact fun c none => absurd none (Nat.not_lt_zero c)

omit [DecidableEq ι] in
theorem Inv.call_lt (inv : Inv f x start off s) {w : Writer} (busy : s.writer p = some w) : w.call < s.calls.length :=
  (List.getElem?_eq_some_iff.mp (inv.active p w busy)).1

theorem Inv.filewrite (inv : Inv f x start off s) (idle : s.writer p = none) (src : List UInt8) :
    Inv f x start off { s with
      writer := update s.writer p (some ⟨s.calls.length, src⟩)
      calls := s.calls ++ [src] } where
  writes := inv.writes
  offset := inv.offset
  node := inv.node
  active := by
    have unused : ofCall s.chunks s.calls.length = [] := by
      rw [ofCall, filter_eq_nil_iff.mpr]
      · rfl
      · intro e member same
        have := inv.known e member
        have := of_decide_eq_true same
        omega
    intro q w busy
    by_cases same : q = p
    · subst same
      simp only [update_self, Option.some.injEq] at busy
      subst busy
      simp [unused]
    · simp only [update_of_ne same] at busy
      rw [List.getElem?_append_left (inv.call_lt busy)]
      exact inv.active q w busy
  apart := by
    intro q r w v busy busy' same
    by_cases here : q = p
    · by_cases there : r = p
      · rw [here, there]
      · simp only [here, update_self, Option.some.injEq] at busy
        simp only [update_of_ne there] at busy'
        have := inv.call_lt busy'
        rw [← same, ← busy] at this
        exact absurd this (Nat.lt_irrefl _)
    · simp only [update_of_ne here] at busy
      by_cases there : r = p
      · simp only [there, update_self, Option.some.injEq] at busy'
        have := inv.call_lt busy
        rw [same, ← busy'] at this
        exact absurd this (Nat.lt_irrefl _)
      · simp only [update_of_ne there] at busy'
        exact inv.apart q r w v busy busy' same
  known := fun e member => by
    have := inv.known e member
    simp only [length_append, length_singleton]
    omega
  complete := by
    intro c inside
    simp only [length_append, length_singleton] at inside
    by_cases last : c = s.calls.length
    · exact .inl ⟨p, _, update_self .., last.symm⟩
    · obtain ⟨q, w, busy, same⟩ | done := inv.complete c (by omega)
      · have other : q ≠ p := by
          rintro rfl
          rw [idle] at busy
          cases busy
        exact .inl ⟨q, w, by simp only [update_of_ne other, busy], same⟩
      · exact .inr (by rw [List.getElem?_append_left (by omega), done])

theorem Inv.turn (inv : Inv f x start off s) {w : Writer} (busy : s.writer p = some w) {fs : State} (writes : WritesTo fs f x)
    (wrote : Wrote s.fs fs f x w.chunk) :
    Inv f x start off { s with
      fs := fs
      writer := update s.writer p (some w.advance)
      chunks := s.chunks ++ [(w.call, w.chunk)] } where
  writes := writes
  offset := by
    change (fs.ftable f).off = _
    rw [wrote.off, inv.offset, written_snoc, length_append, Nat.add_assoc]
  node := by
    refine .inr ⟨append_ne_nil_of_right_ne_nil _ (cons_ne_nil _ _), ?_⟩
    change fs.nodes x = _
    rw [wrote.node, inv.offset, written_snoc]
    obtain ⟨none, same⟩ | ⟨-, same⟩ := inv.node
    · rw [same, none]
      rfl
    · rw [same, Node.write_write]
  active := by
    intro q v busy'
    by_cases same : q = p
    · subst same
      simp only [update_self, Option.some.injEq] at busy'
      subst busy'
      have before := inv.active q w busy
      have whole : w.rest = w.chunk ++ w.advance.rest := (take_append_drop _ _).symm
      rw [whole, ← append_assoc] at before
      rw [show w.advance.call = w.call from rfl, ofCall_snoc, if_pos rfl]
      exact before
    · simp only [update_of_ne same] at busy'
      have other : v.call ≠ w.call := fun calls => same (inv.apart q p v w busy' busy calls)
      rw [ofCall_snoc, if_neg other]
      exact inv.active q v busy'
  apart := by
    have back : ∀ q v, update s.writer p (some w.advance) q = some v → ∃ u, s.writer q = some u ∧ u.call = v.call := by
      intro q v busy'
      by_cases same : q = p
      · subst same
        rw [update_self, Option.some.injEq] at busy'
        exact ⟨w, busy, by rw [← busy']; rfl⟩
      · rw [update_of_ne same] at busy'
        exact ⟨v, busy', rfl⟩
    intro q r v u first second same
    obtain ⟨v', first, calls⟩ := back q v first
    obtain ⟨u', second, calls'⟩ := back r u second
    exact inv.apart q r v' u' first second (by rw [calls, calls', same])
  known := by
    intro e member
    obtain old | new := mem_append.mp member
    · exact inv.known e old
    · rw [mem_singleton.mp new]
      exact inv.call_lt busy
  complete := by
    intro c inside
    by_cases here : w.call = c
    · exact .inl ⟨p, w.advance, update_self .., here⟩
    · rw [ofCall_snoc, if_neg (Ne.symm here)]
      refine (inv.complete c inside).imp_left ?_
      rintro ⟨q, v, busy', same⟩
      have other : q ≠ p := by
        rintro rfl
        rw [busy] at busy'
        cases busy'
        exact here same
      exact ⟨q, v, by simp only [update_of_ne other, busy'], same⟩

theorem Inv.finish (inv : Inv f x start off s) {w : Writer} (busy : s.writer p = some w) (done : w.rest.length = 0) :
    Inv f x start off { s with writer := update s.writer p none } := by
  have back : ∀ q v, update s.writer p none q = some v → s.writer q = some v := by
    intro q v busy'
    by_cases same : q = p
    · rw [same, update_self] at busy'
      cases busy'
    · rwa [update_of_ne same] at busy'
  refine ⟨inv.writes, inv.offset, inv.node, fun q v busy' => inv.active q v (back q v busy'),
    fun q r v u first second => inv.apart q r v u (back q v first) (back r u second), inv.known, fun c inside => ?_⟩
  obtain ⟨q, v, busy', rfl⟩ | complete := inv.complete c inside
  · by_cases same : q = p
    · subst same
      rw [busy] at busy'
      cases busy'
      have whole := inv.active q w busy
      rw [eq_nil_of_length_eq_zero done, append_nil] at whole
      exact .inr whole
    · exact .inl ⟨q, v, by simp only [update_of_ne same, busy'], rfl⟩
  · exact .inr complete

theorem step_cases {l : Label ι} (taken : step f s l = some t) (success : t.failed = false) : s.failed = false ∧
    ((∃ p src, s.writer p = none ∧
      t = { s with writer := update s.writer p (some ⟨s.calls.length, src⟩), calls := s.calls ++ [src] }) ∨
    (∃ p w fs r, s.writer p = some w ∧ (filewriteTurn f w.chunk).run s.fs = .ok (some r, fs) ∧
      t = { s with fs := fs, writer := update s.writer p (some w.advance), chunks := s.chunks ++ [(w.call, w.chunk)] }) ∨
    ∃ p w, s.writer p = some w ∧ w.rest.length = 0 ∧ t = { s with writer := update s.writer p none }) := by
  cases l with
  | filewrite p src =>
    simp only [step] at taken
    split at taken <;> cases taken
    next enabled => exact ⟨success, .inl ⟨p, src, enabled.1, rfl⟩⟩
  | turn p =>
    simp only [step] at taken
    split at taken
    next => cases taken
    next w busy =>
      split at taken
      next => cases taken
      next =>
        split at taken
        next => cases taken
        next =>
          cases taken
          cases success
        next r fs ran =>
          split at taken <;> cases taken
          exact ⟨success, .inr (.inl ⟨p, w, fs, r, busy, ran, rfl⟩)⟩
  | finish p =>
    simp only [step] at taken
    split at taken
    next => cases taken
    next w busy =>
      split at taken <;> cases taken
      next done => exact ⟨success, .inr (.inr ⟨p, w, busy, done, rfl⟩)⟩

theorem Inv.preserved (inv : Inv f x start off s) {l : Label ι} (taken : step f s l = some t) (success : t.failed = false) :
    Inv f x start off t := by
  obtain ⟨p, src, idle, rfl⟩ | ⟨p, w, fs, r, busy, ran, rfl⟩ | ⟨p, w, busy, done, rfl⟩ := (step_cases taken success).2
  · exact inv.filewrite idle src
  · obtain ⟨writes, none | ⟨-, wrote⟩⟩ := wp.ok (inv.writes.wp_filewriteTurn w.chunk) ran
    · cases none
    · exact inv.turn busy writes wrote
  · exact inv.finish busy done

theorem Initial.run_inv (initial : Initial f x s) {labels : List (Label ι)} (reached : run (step f) s labels = some t)
    (success : t.failed = false) : Inv f x (s.fs.nodes x) (s.fs.ftable f).off t := by
  refine Transition.run_invariant (step f) (fun u => u.failed = false → Inv f x (s.fs.nodes x) (s.fs.ftable f).off u) ?_
    (fun _ => initial.inv) reached success
  intro u l v here taken success
  exact (here (step_cases taken success).1).preserved taken success

omit [DecidableEq ι] in
/-- When nobody is writing, every byte of every call was written. -/
theorem Inv.length_calls (inv : Inv f x start off s) (idle : ∀ p, s.writer p = none) :
    (written s.chunks).length = (s.calls.map List.length).sum := by
  have complete : ∀ c < s.calls.length, s.calls[c]? = some (ofCall s.chunks c) := by
    intro c inside
    refine (inv.complete c inside).resolve_left ?_
    rintro ⟨p, w, busy, -⟩
    rw [idle p] at busy
    cases busy
  have all : s.calls = (List.range s.calls.length).map (ofCall s.chunks) := by
    refine ext_getElem (by simp) fun c inside _ => ?_
    have here := complete c inside
    rw [List.getElem?_eq_getElem inside, Option.some.injEq] at here
    simp [here]
  rw [← length_written inv.known]
  conv_rhs => rw [all, map_map]
  exact Multiset.sum_coe _

/-- A call of `filewrite` that succeeds is the turns of its loop. -/
theorem filewriteLoop_turns {fuel c : Nat} {src : List UInt8} {fs : State} (enough : src.length ≤ fuel)
    (ran : (filewriteLoop f fuel src).run s.fs = .ok (true, fs)) (busy : s.writer p = some ⟨c, src⟩) :
    ∃ n t, run (step f) s (List.replicate n (.turn p)) = some t ∧ t.fs = fs ∧ t.writer p = some ⟨c, []⟩ := by
  induction fuel generalizing s src with
  | zero =>
    have none := eq_nil_of_length_eq_zero (Nat.le_zero.mp enough)
    cases ran
    exact ⟨0, s, rfl, rfl, by rw [busy, none]⟩
  | succ fuel ih =>
    rw [filewriteLoop] at ran
    by_cases empty : src.length = 0
    · rw [if_pos empty] at ran
      cases ran
      exact ⟨0, s, rfl, rfl, by rw [busy, eq_nil_of_length_eq_zero empty]⟩
    · rw [if_neg empty, StateT.run_bind] at ran
      cases turned : (filewriteTurn f (src.take (min src.length filewriteMax))).run s.fs with
      | error e =>
        rw [turned] at ran
        cases ran
      | ok out =>
        obtain ⟨r, u⟩ := out
        rw [turned] at ran
        cases r with
        | none => cases ran
        | some r =>
          change (if r ≠ min src.length filewriteMax then panic "short filewrite"
            else filewriteLoop f fuel (src.drop (min src.length filewriteMax))).run u = .ok (true, fs) at ran
          by_cases whole : r = min src.length filewriteMax
          · rw [if_neg (not_not.mpr whole)] at ran
            have taken : ∃ mid, step f s (.turn p) = some mid ∧ mid.fs = u ∧
                mid.writer p = some ⟨c, src.drop (min src.length filewriteMax)⟩ := by
              simp only [step, busy, Writer.chunk, Writer.advance, if_neg empty, turned, whole, ne_eq, not_true_eq_false, if_false]
              exact ⟨_, rfl, rfl, update_self ..⟩
            obtain ⟨mid, taken, rfl, busy'⟩ := taken
            have shorter : (src.drop (min src.length filewriteMax)).length ≤ fuel := by
              have positive : 0 < filewriteMax := by decide
              rw [length_drop]
              omega
            obtain ⟨n, t, reached, same, done⟩ := ih shorter ran busy'
            refine ⟨n + 1, t, ?_, same, done⟩
            rw [replicate_succ, Transition.run_cons, taken]
            exact reached
          · rw [if_pos whole] at ran
            cases ran

/-- The file from the offset on is the chunks of all the calls, one after the other. -/
theorem shared_writes_lose_nothing (initial : Initial f x s) {labels : List (Label ι)}
    (reached : run (step f) s labels = some t) (success : t.failed = false) :
    (∀ o, (t.fs.nodes x).byte o =
      if (s.fs.ftable f).off ≤ o ∧ o < (s.fs.ftable f).off + (written t.chunks).length
        then (written t.chunks).getD (o - (s.fs.ftable f).off) 0 else (s.fs.nodes x).byte o) ∧
    (t.chunks ≠ [] → (t.fs.nodes x).size = max (s.fs.nodes x).size ((s.fs.ftable f).off + (written t.chunks).length)) ∧
    (∀ c src, t.calls[c]? = some src →
      ∃ rest, ofCall t.chunks c ++ rest = src ∧ (rest = [] ∨ ∃ p, t.writer p = some ⟨c, rest⟩)) ∧
    (t.fs.ftable f).off = (s.fs.ftable f).off + (written t.chunks).length ∧
    ((∀ p, t.writer p = none) → (t.fs.ftable f).off = (s.fs.ftable f).off + (t.calls.map List.length).sum) := by
  have inv := initial.run_inv reached success
  refine ⟨fun o => ?_, fun some => ?_, fun c src call => ?_, inv.offset, fun idle => ?_⟩
  · obtain ⟨none, same⟩ | ⟨-, same⟩ := inv.node
    · rw [same, none, if_neg]
      change ¬ (_ ∧ o < (s.fs.ftable f).off + 0)
      omega
    · rw [same]
      rfl
  · obtain ⟨none, -⟩ | ⟨-, same⟩ := inv.node
    · exact absurd none some
    · rw [same]
      rfl
  · obtain ⟨inside, -⟩ := List.getElem?_eq_some_iff.mp call
    obtain ⟨p, ⟨_, rest⟩, busy, rfl⟩ | done := inv.complete c inside
    · exact ⟨rest, Option.some.inj ((inv.active p _ busy).symm.trans call), .inr ⟨p, busy⟩⟩
    · exact ⟨[], by rw [append_nil]; exact Option.some.inj (done.symm.trans call), .inl rfl⟩
  · rw [inv.offset, inv.length_calls idle]

end Invariant

def firstFile : Fin NFILE := ⟨0, by decide⟩

def twoWriters (fs : State) : Writers Bool := ⟨fs, fun _ => none, [], [], false⟩

def longWrite : List UInt8 := List.replicate 2000 7

/-- The second writer comes between the two chunks of the first. -/
def crossed : List (Label Bool) :=
  [.filewrite true longWrite, .filewrite false [4, 5], .turn true, .turn false, .turn true, .finish true, .finish false]

theorem shared_writes_crossed : ∃ fs t, Initial firstFile 4 (twoWriters fs) ∧
    run (step firstFile) (twoWriters fs) crossed = some t ∧
    (t.fs.ftable firstFile).off = (fs.ftable firstFile).off + 2002 := by
  have outcome : (run Fs.step (smallImage.boot [] []) [(initproc, .open pathF O_RDWR)]).any
      (fun fs => decide ((fs.ftable firstFile).type = .inode ∧ (fs.ftable firstFile).writable = true ∧
          (fs.icache (fs.ftable firstFile).ip).inum = 4 ∧ (fs.nodes 4).type = T_FILE) &&
        (run (step firstFile) (twoWriters fs) crossed).any
        fun t => decide (t.failed = false ∧ (t.calls.map List.length).sum = 2002 ∧ ∀ p, t.writer p = none)) = true := by
    decide +kernel
  obtain ⟨fs, opened, outcome⟩ := (Option.any_eq_true _ _).mp outcome
  rw [Bool.and_eq_true] at outcome
  obtain ⟨type, writable, inum, file⟩ := of_decide_eq_true outcome.1
  obtain ⟨t, reached, after⟩ := (Option.any_eq_true _ _).mp outcome.2
  obtain ⟨success, calls, idle⟩ := of_decide_eq_true after
  have initial : Initial firstFile 4 (twoWriters fs) :=
    ⟨⟨(run_atRest smallImage_wellFormed opened).inv, type, writable, inum, file⟩, fun _ => rfl, rfl, rfl, rfl⟩
  have off := (shared_writes_lose_nothing initial reached success).2.2.2.2 idle
  rw [calls] at off
  exact ⟨fs, t, initial, reached, off⟩

theorem filewriteLoop_turns_alone : ∃ fs t n, (filewriteLoop firstFile 3 [1, 2, 3]).run fs = .ok (true, t.fs) ∧
    run (step firstFile) { twoWriters fs with writer := fun _ => some ⟨0, [1, 2, 3]⟩ }
      (List.replicate n (.turn true)) = some t := by
  have outcome : (run Fs.step (smallImage.boot [] []) [(initproc, .open pathF O_RDWR)]).any
      (fun fs => ((filewriteLoop firstFile 3 [1, 2, 3]).run fs).toOption.any fun r => r.1) = true := by
    decide +kernel
  obtain ⟨fs, -, outcome⟩ := (Option.any_eq_true _ _).mp outcome
  obtain ⟨⟨r, u⟩, ran, rfl⟩ := (Option.any_eq_true _ _).mp outcome
  have ran := Transition.ok_of_toOption ran
  obtain ⟨n, t, reached, rfl, -⟩ := filewriteLoop_turns (s := { twoWriters fs with writer := fun _ => some ⟨0, [1, 2, 3]⟩ })
    (p := true) (Nat.le_refl 3) ran rfl
  exact ⟨fs, t, n, ran, reached⟩

end Shared

end Xv6.Fs
