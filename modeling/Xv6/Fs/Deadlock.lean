import Xv6.Fs.Listing

/-! Why a call on paths stops: when it waits for an inode lock that it holds itself, and when `iget`
finds no free entry in the inode cache. -/

variable {nodes after : Nodes} {cwd d x i inum type : Nat} {p : Fin NPROC} {call : Call}

namespace Xv6.Fs
open Lib Nat Finset

namespace Nodes

variable {used more locked : Finset Nat} {n y : Nat} {name path : List UInt8} {parent : Bool} {e : Stop}

/-- A directory has an entry for an inode that is free. -/
def Dangling (nodes : Nodes) : Prop :=
  ∃ d, (nodes d).type = T_DIR ∧ ∃ e ∈ (nodes d).entries, e.1 ≠ 0 ∧ (nodes e.1).type = 0

/-- There may be an inode of no type on the way of a path. -/
def Broken (nodes : Nodes) (cwd : Nat) : Prop :=
  (nodes ROOTINO).type = 0 ∨ (nodes cwd).type = 0 ∨ nodes.Dangling

/-- Why a call of a process in `cwd` panics, others using the inodes `used`. -/
inductive Cause (nodes : Nodes) (used : Finset Nat) (cwd : Nat) : Stop → Prop
  | noType (broken : nodes.Broken cwd) : Cause nodes used cwd (.panic "ilock: no type")
  | full {more : Finset Nat} (few : more.card ≤ used.card + 2) (full : NINODE ≤ more.card) :
      Cause nodes used cwd (.panic "iget: no inodes")
  | unaligned {d : Nat} {message : String} (dir : (nodes d).type = T_DIR) (cut : ¬ (nodes d).Aligned)
      (which : message = "dirlookup read" ∨ message = "isdirempty: readi") : Cause nodes used cwd (.panic message)
  | exhausted {message : String} (which : message ∈ ["ialloc: no inodes", "dirlink", "unlink: nlink < 1"]) :
      Cause nodes used cwd (.panic message)

theorem Cause.ne_deadlock (cause : nodes.Cause used cwd e) : e ≠ .deadlock := by
  cases cause <;> exact fun wrong => nomatch wrong

theorem Cause.broken (cause : nodes.Cause used cwd (.panic "ilock: no type")) : nodes.Broken cwd := by
  generalize stopped : Stop.panic "ilock: no type" = e at cause
  cases cause with
  | noType broken => exact broken
  | full => exact absurd stopped (by decide)
  | unaligned dir cut which =>
    cases stopped
    exact absurd which (by decide)
  | exhausted which =>
    cases stopped
    exact absurd which (by decide)

theorem entry_mem (found : (nodes d).lookup name = some i) :
    ∃ e ∈ (nodes d).entries, e.1 ≠ 0 ∧ e.1 = ((nodes d).entry i).inum := by
  obtain ⟨inside, occupied, -⟩ := Node.listed_of_lookup found
  exact ⟨_, Node.mem_entries.mpr ⟨i, inside, rfl⟩, occupied, rfl⟩

theorem dangling_of_lookup (dir : (nodes d).type = T_DIR) (found : (nodes d).lookup name = some i)
    (free : (nodes ((nodes d).entry i).inum).type = 0) : nodes.Dangling := by
  obtain ⟨e, member, occupied, same⟩ := entry_mem found
  exact ⟨d, dir, e, member, occupied, by rwa [same]⟩

theorem dirlookup_cause (few : more.card ≤ used.card + 2) (dir : (nodes d).type = T_DIR)
    (stopped : nodes.dirlookup more d name = .error e) : nodes.Cause used cwd e := by
  unfold dirlookup at stopped
  split at stopped
  · split at stopped
    next full =>
      cases stopped
      exact .full few full.2
    next => cases stopped
  · split at stopped
    next => cases stopped
    next cut =>
      cases stopped
      exact .unaligned dir cut (.inl rfl)

theorem walk_cause {fuel : Nat} (few : more.card ≤ used.card + 1) (start : (nodes y).type = 0 → nodes.Broken cwd)
    (stopped : nodes.walk more parent fuel y path = .error e) : nodes.Cause used cwd e := by
  induction fuel generalizing y path with
  | zero => cases stopped
  | succ fuel ih =>
    unfold walk at stopped
    split at stopped
    next => cases stopped
    next =>
      split at stopped
      next free =>
        cases stopped
        exact .noType (start free)
      split at stopped
      next => cases stopped
      next dir =>
      have dir := not_not.mp dir
      split at stopped
      next => cases stopped
      split at stopped
      next failed =>
        cases stopped
        exact dirlookup_cause ((card_insert_le ..).trans (succ_le_succ few)) dir failed
      next => cases stopped
      next i looked =>
        refine ih (fun free => ?_) stopped
        exact .inr (.inr (dangling_of_lookup dir (dirlookup_some looked) free))

theorem resolve_cause (few : more.card ≤ used.card + 1) (stopped : nodes.resolve more cwd parent path = .error e) :
    nodes.Cause used cwd e := by
  unfold resolve at stopped
  split at stopped
  · split at stopped
    next full =>
      cases stopped
      exact .full (few.trans (le_succ _)) full.2
    next => exact walk_cause few .inl stopped
  · exact walk_cause few (fun free => .inr (.inl free)) stopped

theorem resolve_broken (found : nodes.resolve used cwd parent path = .ok (some (x, name))) (free : (nodes x).type = 0) :
    nodes.Broken cwd := by
  refine walk_mem (fun z => (nodes z).type = 0 → nodes.Broken cwd) ?_ ?_ (resolve_walk found) free
  · split
    · exact .inl
    · exact fun free => .inr (.inl free)
  · exact fun d _ dir e member occupied free => .inr (.inr ⟨d, dir, e, member, occupied, free⟩)

theorem namei_cause (stopped : nodes.namei used cwd path = .error e) : nodes.Cause used cwd e := by
  unfold namei at stopped
  split at stopped
  next failed =>
    cases stopped
    exact resolve_cause (le_succ _) failed
  next => cases stopped
  next found =>
    split at stopped
    next free =>
      cases stopped
      exact .noType (resolve_broken found free)
    next => cases stopped

theorem dirlink_cause (few : more.card ≤ used.card + 2) (dir : (nodes d).type = T_DIR)
    (stopped : nodes.dirlink more locked d name inum = .error e) :
    nodes.Cause used cwd e ∨ (e = .deadlock ∧ ∃ i, (nodes d).lookup name = some i ∧ ((nodes d).entry i).inum ∈ locked) := by
  unfold dirlink at stopped
  split at stopped
  next failed =>
    cases stopped
    exact .inl (dirlookup_cause few dir failed)
  next i looked =>
    split at stopped
    next member =>
      cases stopped
      exact .inr ⟨rfl, i, dirlookup_some looked, member⟩
    next => cases stopped
  next =>
    split at stopped <;> cases stopped
    exact .inl (.exhausted (by decide))

/-- The new name is taken, in its directory, by an entry for this directory. -/
def SelfLink (nodes : Nodes) (used : Finset Nat) (cwd : Nat) (old new : List UInt8) : Prop :=
  ∃ x d name i, nodes.namei used cwd old = .ok (some x) ∧ (nodes x).type ≠ T_DIR ∧
    nodes.resolve (insert x used) cwd true new = .ok (some (d, name)) ∧ (nodes d).lookup name = some i ∧
    ((nodes d).entry i).inum = d

theorem Cause.of_relink {delta : Nat} (cause : (nodes.relink x delta).Cause used cwd e) : nodes.Cause used cwd e := by
  have types : ∀ y, (nodes.relink x delta y).type = (nodes y).type := fun y => by rw [relink_apply]
  have entries : ∀ y, (nodes.relink x delta y).entries = (nodes y).entries := fun y => by
    rw [relink_apply]
    rfl
  cases cause with
  | noType broken =>
    refine .noType ?_
    obtain root | here | ⟨d, dir, link, member, occupied, free⟩ := broken
    · exact .inl (by rwa [types] at root)
    · exact .inr (.inl (by rwa [types] at here))
    · rw [types] at dir free
      rw [entries] at member
      exact .inr (.inr ⟨d, dir, link, member, occupied, free⟩)
  | full few full => exact .full few full
  | @unaligned d _ dir cut which =>
    rw [types] at dir
    rw [relink_apply] at cut
    exact .unaligned dir cut which
  | exhausted which => exact .exhausted which

theorem link_cause {old new : List UInt8} (stopped : nodes.link used cwd old new = .error e) :
    nodes.Cause used cwd e ∨ (e = .deadlock ∧ nodes.SelfLink used cwd old new) := by
  unfold link at stopped
  split at stopped
  next failed =>
    cases stopped
    exact .inl (namei_cause failed)
  next => cases stopped
  next x found =>
    split at stopped
    next => cases stopped
    next file =>
      unfold linkInto at stopped
      rw [resolve_relink] at stopped
      split at stopped
      next failed =>
        cases stopped
        exact .inl (resolve_cause (card_insert_le ..) failed)
      next => cases stopped
      next d name parent =>
        split at stopped
        next failed =>
          cases stopped
          have few : (insert d (insert x used)).card ≤ used.card + 2 :=
            (card_insert_le ..).trans (succ_le_succ (card_insert_le ..))
          have dir : (nodes.relink x 1 d).type = T_DIR := by
            rw [relink_apply]
            exact resolve_dir parent
          have why : (nodes.relink x 1).Cause used cwd _ ∨ _ := dirlink_cause few dir failed
          obtain cause | ⟨same, i, looked, self⟩ := why
          · exact .inl cause.of_relink
          · rw [relink_apply] at looked self
            exact .inr ⟨same, x, d, name, i, found, file, parent, looked, mem_singleton.mp self⟩
        next => cases stopped
        next => cases stopped

theorem unlink_cause (stopped : nodes.unlink used cwd path = .error e) :
    nodes.Cause used cwd e ∨ (e = .deadlock ∧ ∃ d name i, nodes.resolve used cwd true path = .ok (some (d, name)) ∧
      component name ≠ dot ∧ component name ≠ dotdot ∧ (nodes d).lookup name = some i ∧ ((nodes d).entry i).inum = d) := by
  unfold unlink at stopped
  split at stopped
  next failed =>
    cases stopped
    exact .inl (resolve_cause (le_succ _) failed)
  next => cases stopped
  next d name parent =>
    have dir := resolve_dir parent
    split at stopped
    next => cases stopped
    next plain =>
      rw [not_or, namecmp_eq_zero, namecmp_eq_zero] at plain
      split at stopped
      next failed =>
        cases stopped
        exact .inl (dirlookup_cause ((card_insert_le ..).trans (le_succ _)) dir failed)
      next => cases stopped
      next i looked =>
        have found := dirlookup_some looked
        unfold unlinkAt at stopped
        simp only at stopped
        split at stopped
        next self =>
          cases stopped
          exact .inr ⟨rfl, d, name, i, parent, plain.1, plain.2, found, self⟩
        split at stopped
        next free =>
          cases stopped
          exact .inl (.noType (.inr (.inr (dangling_of_lookup dir found free))))
        split at stopped
        next =>
          cases stopped
          exact .inl (.exhausted (by decide))
        split at stopped
        next => cases stopped
        split at stopped
        next cut =>
          cases stopped
          exact .inl (.unaligned cut.1 cut.2.2 (.inr rfl))
        next => cases stopped

theorem ialloc_cause (few : more.card ≤ used.card + 2) (stopped : nodes.ialloc n more = .error e) : nodes.Cause used cwd e := by
  unfold ialloc at stopped
  split at stopped
  next =>
    cases stopped
    exact .exhausted (by decide)
  next =>
    split at stopped
    next full =>
      cases stopped
      exact .full few full.2
    next => cases stopped

variable {major minor : Nat}

theorem create_cause (small : n ≤ 2 ^ 16)
    (stopped : nodes.create n used cwd path type major minor = .error e) : nodes.Cause used cwd e := by
  unfold create at stopped
  split at stopped
  next failed =>
    cases stopped
    exact resolve_cause (le_succ _) failed
  next => cases stopped
  next d name parent =>
    have dir := resolve_dir parent
    have few : (insert d used).card ≤ used.card + 2 := (card_insert_le ..).trans (le_succ _)
    split at stopped
    next failed =>
      cases stopped
      exact dirlookup_cause few dir failed
    next i looked =>
      unfold createOld at stopped
      split at stopped
      next free =>
        cases stopped
        exact .noType (.inr (.inr (dangling_of_lookup dir (dirlookup_some looked) free)))
      next => split at stopped <;> cases stopped
    next looked =>
      obtain ⟨missing, aligned⟩ := dirlookup_none looked
      rw [createNew_of_none small dir missing aligned] at stopped
      split at stopped
      next failed =>
        cases stopped
        split at failed
        next taken =>
          cases failed
          exact ialloc_cause few taken
        next =>
          split at failed <;> cases failed
          exact .exhausted (by decide)
      next => cases stopped

theorem createAndPut_cause {path : Option (List UInt8)} (small : n ≤ 2 ^ 16)
    (stopped : nodes.createAndPut n used cwd path type major minor = .error e) : nodes.Cause used cwd e := by
  cases path with
  | none => cases stopped
  | some path =>
  simp only [createAndPut] at stopped
  split at stopped
  next failed =>
    cases stopped
    exact create_cause small failed
  next => cases stopped
  next => cases stopped

theorem chdir_cause {path : Option (List UInt8)} (stopped : nodes.chdir used cwd path = .error e) :
    nodes.Cause used cwd e := by
  cases path with
  | none => cases stopped
  | some path => exact namei_cause stopped

theorem openInode_cause {omode : Nat} (small : n ≤ 2 ^ 16) (stopped : nodes.openInode n used cwd path omode = .error e) :
    nodes.Cause used cwd e := by
  unfold openInode at stopped
  split at stopped
  · exact create_cause small stopped
  · split at stopped
    next failed =>
      cases stopped
      exact namei_cause failed
    next => cases stopped
    next => split at stopped <;> cases stopped

end Nodes

section Calls

variable {s : State} {e : Stop}

theorem Call.Fails.cause (fails : call.Fails s p e) (small : s.sb.ninodes ≤ 2 ^ 16) (panics : e ≠ .deadlock) :
    s.nodes.Cause (s.used 0) (s.cwdInum p) e := by
  cases call with
  | «open» path omode => exact Nodes.openInode_cause small fails
  | mkdir path => exact Nodes.createAndPut_cause small fails
  | mknod path major minor => exact Nodes.createAndPut_cause small fails
  | chdir path => exact Nodes.chdir_cause fails
  | exec path vm => exact Nodes.namei_cause fails
  | unlink path => exact (Nodes.unlink_cause fails).resolve_right fun self => panics self.1
  | link old new => exact (Nodes.link_cause fails).resolve_right fun self => panics self.1
  | read | write | fstat | dup | close | pipe | fork | exit | unfetched => exact fails.elim

end Calls

end Xv6.Fs

namespace Xv6.Fs
open Lib Function

namespace Nodes

variable {used locked : Finset Nat} {name : List UInt8}

/-- Only `.` and `..` of a directory may be for the directory itself. -/
def NoSelf (nodes : Nodes) : Prop :=
  ∀ d ≠ 0, (nodes d).type = T_DIR → ∀ e ∈ (nodes d).entries, e.1 = d → e.2 = dot ∨ e.2 = dotdot

section

variable (only : nodes.NoSelf)
include only

theorem NoSelf.of_same
    (same : ∀ d, (after d).type = T_DIR → (nodes d).type = T_DIR ∧ (after d).entries = (nodes d).entries) : after.NoSelf := by
  intro d nonzero dir e member
  obtain ⟨before, entries⟩ := same d dir
  rw [entries] at member
  exact only d nonzero before e member

theorem NoSelf.relink (x delta : Nat) : (nodes.relink x delta).NoSelf :=
  only.of_same fun d dir => by
    rw [relink_apply] at dir ⊢
    exact ⟨dir, rfl⟩

theorem NoSelf.reap (used : Finset Nat) (x : Nat) : (nodes.reap used x).NoSelf := by
  unfold Nodes.reap
  split
  next =>
    refine only.of_same fun d dir => ?_
    by_cases same : d = x
    · rw [same, update_self] at dir
      cases dir
    · rw [update_of_ne same] at dir ⊢
      exact ⟨dir, rfl⟩
  next => exact only

theorem NoSelf.drift (drift : nodes.Drift after) : after.NoSelf := by
  induction drift with
  | refl => exact only
  | tail _ last ih =>
    obtain same | ⟨used, x, rfl⟩ := last
    · refine ih.of_same fun d dir => ?_
      obtain ⟨type, -, dirs⟩ := same d
      rw [type] at dir
      rw [dirs dir]
      exact ⟨dir, rfl⟩
    · exact ih.reap used x

theorem NoSelf.update {node : Node}
    (here : ∀ e ∈ node.entries, e.1 = d → e.2 = dot ∨ e.2 = dotdot) : NoSelf (update nodes d node) := by
  intro c nonzero dir e member
  by_cases same : c = d
  · subst same
    rw [update_self] at member
    exact here e member
  · rw [update_of_ne same] at dir member
    exact only c nonzero dir e member

theorem NoSelf.link (dir : (nodes d).type = T_DIR) (nonzero : d ≠ 0) (aligned : (nodes d).Aligned)
    (apart : x % 2 ^ 16 ≠ d) (name : List UInt8) : NoSelf (Function.update nodes d ((nodes d).linked name x)) := by
  refine only.update fun e member same => ?_
  rw [Node.entries_linked aligned] at member
  obtain rfl | old := Slots.mem_of_mem_place member
  · exact absurd same apart
  · exact only d nonzero dir e old same

theorem NoSelf.clear (dir : (nodes d).type = T_DIR) (inside : i < (nodes d).count) :
    (nodes.eraseEntry d i).NoSelf := by
  by_cases zero : d = 0
  · intro c nonzero dirC e member
    have apart : c ≠ d := zero ▸ nonzero
    rw [eraseEntry, update_of_ne apart] at dirC member
    exact only c nonzero dirC e member
  · refine only.update fun e member same => ?_
    have cleared := Node.entries_cleared inside
    unfold Node.cleared at cleared
    rw [cleared] at member
    obtain old | rfl := List.mem_or_eq_of_mem_set member
    · exact only d zero dir e old same
    · exact absurd same.symm zero

theorem NoSelf.placed (dir : (nodes d).type = T_DIR) (nonzero : d ≠ 0)
    (aligned : (nodes d).Aligned) (apart : x ≠ d) (positive : 0 < x) (small : x < 2 ^ 16) (empty : (nodes x).size = 0) :
    (nodes.placed d name x type).NoSelf := by
  have number : x % 2 ^ 16 = x := Nat.mod_eq_of_lt small
  unfold Nodes.placed
  split
  next =>
    have there : Function.update (nodes.relink d 1) x (((nodes x).linked dot x).linked dotdot d) d = nodes.relink d 1 d :=
      update_of_ne apart.symm ..
    have dots : NoSelf (Function.update (nodes.relink d 1) x (((nodes x).linked dot x).linked dotdot d)) := by
      refine (only.relink d 1).update fun e member _ => ?_
      rw [(fresh_entries empty (by omega)).2.2, List.mem_pair] at member
      obtain rfl | rfl := member
      · exact .inl rfl
      · exact .inr rfl
    rw [← there]
    refine dots.link ?_ nonzero ?_ (by rw [number]; exact apart) name
    · rw [there, relink_apply]
      exact dir
    · rw [there, relink_apply]
      exact aligned
  next => exact only.link dir nonzero aligned (by rw [number]; exact apart) name

theorem NoSelf.make (x type major minor : Nat) : (nodes.make x type major minor).NoSelf := by
  refine only.update fun e member => ?_
  rw [Node.entries_of_empty (show Node.size _ = 0 from rfl)] at member
  cases member

end

theorem dirlink_self (found : (nodes d).lookup name = some i) (self : ((nodes d).entry i).inum = d) :
    nodes.dirlink (insert d used) {d} d name inum = .error .deadlock := by
  have looked : nodes.dirlookup (insert d used) d name = .ok (some i) := by
    rw [dirlookup, found]
    exact if_neg fun full => full.1 (by rw [self]; exact Finset.mem_insert_self ..)
  simp only [dirlink, looked, self, Finset.mem_singleton, if_true]

theorem link_deadlock_iff (old new : List UInt8) :
    nodes.link used cwd old new = .error .deadlock ↔ nodes.SelfLink used cwd old new := by
  constructor
  · exact fun stopped => (link_cause stopped).elim (fun cause => absurd rfl cause.ne_deadlock) fun self => self.2
  · rintro ⟨x, d, name, i, found, file, parent, looked, self⟩
    have stopped : (nodes.relink x 1).dirlink (insert d (insert x used)) {d} d name x = .error .deadlock := by
      refine dirlink_self (i := i) ?_ ?_
      · rw [relink_apply]
        exact looked
      · rw [relink_apply]
        exact self
    simp only [link, found, if_neg file, linkInto, resolve_relink, parent, stopped]

theorem unlink_ne_deadlock (only : nodes.NoSelf) (nonzero : cwd ≠ 0) (path : List UInt8) :
    nodes.unlink used cwd path ≠ .error .deadlock := by
  intro stopped
  obtain cause | ⟨-, d, name, i, parent, notDot, notDotdot, found, self⟩ := unlink_cause stopped
  · exact cause.ne_deadlock rfl
  obtain ⟨inside, -, same⟩ := Node.listed_of_lookup found
  have member : (nodes d).listed i ∈ (nodes d).entries := Node.mem_entries.mpr ⟨i, inside, rfl⟩
  obtain isDot | isDotdot := only d (resolve_ne_zero nonzero parent) (resolve_dir parent) _ member self
  · exact notDot (same.symm.trans isDot)
  · exact notDotdot (same.symm.trans isDotdot)

end Nodes

section Deadlock

variable {s t : State}

theorem Effect.noSelf (effect : Effect s cwd call after) (only : s.nodes.NoSelf) (nonzero : cwd ≠ 0)
    (small : s.sb.ninodes ≤ 2 ^ 16) : after.NoSelf := by
  cases effect with
  | drift drift => exact only.drift drift
  | @link old new x d name _ linked drift =>
    obtain ⟨allocated, -⟩ := Nodes.namei_some linked.found
    have inside : x < 2 ^ 16 := Nat.lt_of_lt_of_le (State.lt_of_type allocated) small
    have dir := Nodes.resolve_dir linked.parent
    refine Nodes.NoSelf.drift ?_ drift
    refine (only.relink x 1).link ?_ (Nodes.resolve_ne_zero nonzero linked.parent) ?_ ?_ name
    · rw [Nodes.relink_apply]
      exact dir
    · rw [Nodes.relink_apply]
      exact linked.aligned
    · rw [Nat.mod_eq_of_lt inside]
      rintro rfl
      exact linked.file dir
  | @unlink path d i name _ unlinked drift =>
    refine Nodes.NoSelf.drift ?_ drift
    refine Nodes.NoSelf.relink ?_ _ _
    have cleared := only.clear (Nodes.resolve_dir unlinked.parent) (Node.listed_of_lookup unlinked.found).1
    unfold Nodes.unlinkParent
    split
    · exact cleared.relink _ _
    · exact cleared
  | @create _ path type major minor x d name _ creates created drift =>
    have dir := Nodes.resolve_dir created.parent
    have apart : x ≠ d := by
      rintro rfl
      rw [created.free] at dir
      cases dir
    have there : s.nodes.make x type major minor d = s.nodes d := update_of_ne apart.symm ..
    refine Nodes.NoSelf.drift ?_ drift
    refine (only.make x type major minor).placed ?_ (Nodes.resolve_ne_zero nonzero created.parent) ?_ apart created.positive
      (Nat.lt_of_lt_of_le created.inside small) ?_
    · rw [there]
      exact dir
    · rw [there]
      exact created.aligned
    · rw [Nodes.make, update_self]
      rfl

def Call.LinksSelf (s : State) (p : Fin NPROC) : Call → Prop
  | .link old new => s.nodes.SelfLink (s.used 0) (s.cwdInum p) old.bytes new.bytes
  | _ => False

theorem Call.Fails.deadlock (fails : call.Fails s p .deadlock) (only : s.nodes.NoSelf) (small : s.sb.ninodes ≤ 2 ^ 16)
    (nonzero : s.cwdInum p ≠ 0) : call.LinksSelf s p := by
  cases call with
  | «open» path omode => exact ((Nodes.openInode_cause small fails).ne_deadlock rfl).elim
  | mkdir path => exact ((Nodes.createAndPut_cause small fails).ne_deadlock rfl).elim
  | mknod path major minor => exact ((Nodes.createAndPut_cause small fails).ne_deadlock rfl).elim
  | unlink path => exact (Nodes.unlink_ne_deadlock only nonzero _ fails).elim
  | chdir path => exact ((Nodes.chdir_cause fails).ne_deadlock rfl).elim
  | exec path vm => exact ((Nodes.namei_cause fails).ne_deadlock rfl).elim
  | link old new => exact (Nodes.link_deadlock_iff _ _).mp fails
  | read | write | fstat | dup | close | pipe | fork | exit | unfetched => exact fails.elim

theorem Settled.deadlock_iff {image : Image} (settled : Settled image s) (only : s.nodes.NoSelf) (alive : (s.procs p).cwd ≠ none)
    (granted : call.Granted s) (onPaths : call.OnPaths) :
    (call.code p).run s = .error .deadlock ↔ call.LinksSelf s p := by
  have spec := wp_call settled.rest alive granted
  constructor
  · intro stopped
    obtain fails | wrong := (wp.error spec stopped).2 onPaths settled.covered
    · exact fails.deadlock only settled.small (settled.cwd_ne_zero alive)
    · cases wrong
  · intro self
    cases call with
    | link old new =>
      have result := (Nodes.link_deadlock_iff _ _).mpr self
      cases ran : ((Call.link old new).code p).run s with
      | ok value =>
        obtain ⟨o, same, -⟩ := ((wp.ok spec ran).covered settled.covered).2
        rw [result] at same
        cases same
      | error e =>
        obtain ⟨cwd, here⟩ := Option.ne_none_iff_exists'.mp alive
        have spec := wp_sysLink settled.rest here old new
        rw [← State.cwdInum_eq here] at spec
        obtain same | ⟨-, after, same⟩ := (wp.error spec ran).2 settled.covered
        · rw [result] at same
          cases same
          rfl
        · rw [result] at same
          cases same
    | _ => exact self.elim

theorem self_deadlock_iff {image : Image} {tty peer : List (Option (List UInt8))} {calls : List (Fin NPROC × Call)}
    (clean : image.Clean) (only : image.nodes.NoSelf)
    (reached : Transition.run step (image.boot tty peer) calls = some s) (alive : (s.procs p).cwd ≠ none)
    (granted : call.Granted s) (onPaths : call.OnPaths) :
    ((call.code p).run s = .error .deadlock ↔ call.LinksSelf s p) ∧
    ∀ r t, (call.code p).run s = .ok (r, t) → ∀ k, (t.icache k).lock = false := by
  have along : Transition.Along step (fun _ _ => True) (image.boot tty peer) calls := fun _ _ _ _ _ _ => trivial
  obtain ⟨settled, only'⟩ := run_settled Nodes.NoSelf clean only
    (fun s p call after settled alive _ only effect => effect.noSelf only (settled.cwd_ne_zero alive) settled.small) along reached
  refine ⟨settled.deadlock_iff only' alive granted onPaths, fun r t returned k => ?_⟩
  have rest := (wp.ok (wp_call settled.rest alive granted) returned).rest
  cases taken : (t.icache k).lock with
  | false => rfl
  | true => exact absurd ((rest.inv.refs.lock k).mp taken) (Finset.notMem_empty k)

end Deadlock

theorem smallImage_noSelf : smallImage.nodes.NoSelf := by
  have only : ∀ d < 6, d ≠ 0 → (nodeOf smallImage.disk (dinodeAt smallImage.sb smallImage.disk d)).type = T_DIR →
      ∀ e ∈ (nodeOf smallImage.disk (dinodeAt smallImage.sb smallImage.disk d)).entries, e.1 = d → e.2 = dot ∨ e.2 = dotdot := by
    decide +kernel
  intro d nonzero
  unfold Image.nodes
  split
  next inside => exact only d inside nonzero
  next => exact fun wrong => nomatch wrong

def pathDot : Path := ⟨[47, 46], by decide⟩

theorem link_dot_deadlocks : smallImage.Clean ∧ smallImage.nodes.NoSelf ∧
    ((Call.link pathF pathDot).code initproc).run (smallImage.boot [] []) = .error .deadlock :=
  ⟨smallImage_clean, smallImage_noSelf, stopOf_eq (by decide +kernel)⟩

theorem link_dot_is_self : (Call.link pathF pathDot).LinksSelf (smallImage.boot [] []) initproc := by
  have booted : Transition.run step (smallImage.boot [] []) [] = some (smallImage.boot [] []) := rfl
  have alive : ((smallImage.boot [] []).procs initproc).cwd ≠ none := by decide
  have granted : (Call.link pathF pathDot).Granted (smallImage.boot [] []) := trivial
  exact (self_deadlock_iff smallImage_clean smallImage_noSelf booted alive granted trivial).1.mp (stopOf_eq (by decide +kernel))

end Xv6.Fs

namespace Xv6.Fs
open Lib Transition

section Calls

variable {image : Image} {tty peer : List (Option (List UInt8))} {s : State} {calls : List (Fin NPROC × Call)}

end Calls

theorem letter_ne_zero (i : Nat) : (0 : UInt8) ∉ [UInt8.ofNat (i % 26 + 65)] := by
  rw [List.mem_singleton]
  intro zero
  have number := congrArg UInt8.toNat zero
  rw [UInt8.toNat_ofNat'] at number
  change 0 = (i % 26 + 65) % 256 at number
  omega

def pathLetter (i : Nat) : Path := ⟨[UInt8.ofNat (i % 26 + 65)], letter_ne_zero i⟩

def opens (n : Nat) : List (Fin NPROC × Call) :=
  (List.range n).map fun i => (Fin.ofNat NPROC (i / 12), .open (pathLetter (i % 12)) O_RDONLY)

end Xv6.Fs
