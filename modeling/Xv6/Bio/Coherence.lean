import Xv6.Bio.Cache
import Xv6.Lib.Transition

/-! The cache and the disk together stand for a plain map `view`. A valid buffer holds what the map
holds, and where the disk differs a dirty buffer, or one that is being changed, keeps the contents.
-/

namespace Xv6
open Lib Function

def Call.refs : Call → Fin NBUF → Nat
  | .idle, _ => 0
  | .waiting j, k | .dropping j, k => if j = k then 1 else 0

namespace Cache

variable {ι β : Type}

structure BufOk (view : Addr → β) (b : Buf ι β) : Prop where
  locked : b.owner ≠ none → b.valid = true
  dirty : b.dirty = true → b.valid = true
  changed : b.changed = true → b.owner ≠ none
  data : b.valid = true → b.addr.1 ≠ 0 → b.data = view b.addr
  range : b.valid = true → b.addr.2 < FSSIZE

/-- `b` keeps contents that the disk does not have. -/
def Keeps (b : Buf ι β) (a : Addr) : Prop :=
  b.addr = a ∧ b.valid = true ∧ (b.dirty = true ∨ b.changed = true)

structure Coherent [Fintype ι] (c : Cache ι β) (disk view : Addr → β) : Prop where
  unique : ∀ j k, (c.buf j).addr = (c.buf k).addr → (c.buf j).addr.1 ≠ 0 → j = k
  refs : ∀ k, (c.buf k).refcnt = ∑ i, (c.call i).refs k + (c.buf k).owner.isSome.toNat
  ok : ∀ k, BufOk view (c.buf k)
  fresh : ∀ a, a.1 ≠ 0 → view a = disk a ∨ ∃ k, Keeps (c.buf k) a

/-- Process `i` has the block in buffer `k`, or is in a call of `bread` that ends with it. -/
def Has (c : Cache ι β) (i : ι) (k : Fin NBUF) (a : Addr) : Prop :=
  (c.buf k).addr = a ∧ ((c.buf k).owner = some i ∨ c.call i = .waiting k)

@[simp] theorem set_buf_self (c : Cache ι β) (k : Fin NBUF) (b : Buf ι β) : (c.set k b).buf k = b := by
  simp [set]

variable {k : Fin NBUF}

theorem set_buf_of_ne {c : Cache ι β} {j : Fin NBUF} {b : Buf ι β} (apart : j ≠ k) :
    (c.set k b).buf j = c.buf j := by
  simp [set, apart]

@[simp] theorem set_call (c : Cache ι β) (k : Fin NBUF) (b : Buf ι β) : (c.set k b).call = c.call := rfl

/-- No buffer that keeps contents is recycled, unpinned or handed to another process. -/
structure Steady (c c' : Cache ι β) : Prop where
  dirty : ∀ l, (c.buf l).dirty = true → (c'.buf l).dirty = true ∧ (c'.buf l).addr = (c.buf l).addr
  changed : ∀ l, (c.buf l).changed = true →
    (c'.buf l).changed = true ∧ (c'.buf l).addr = (c.buf l).addr ∧ (c'.buf l).owner = (c.buf l).owner
  old : ∀ l, (c'.buf l).changed = true → (c.buf l).changed = true

variable {c : Cache ι β} {i : ι}

variable {a : Addr}

theorem Has.owner_of_idle (has : c.Has i k a)
    (idle : c.call i = .idle) : (c.buf k).owner = some i :=
  has.2.resolve_right fun waits => by rw [idle] at waits; cases waits

theorem pinned_lt {pinned : List Addr} (distinct : pinned.Nodup)
    (dirty : ∀ a ∈ pinned, ∃ k, (c.buf k).addr = a ∧ (c.buf k).dirty = true) (k : Fin NBUF)
    (other : (c.buf k).addr ∉ pinned) : pinned.length < NBUF := by
  have places : pinned.toFinset ⊆ (Finset.univ.erase k).image fun j => (c.buf j).addr := by
    intro a member
    rw [List.mem_toFinset] at member
    obtain ⟨j, here, -⟩ := dirty a member
    have apart : j ≠ k := fun same => other (same ▸ here ▸ member)
    exact Finset.mem_image.mpr ⟨j, Finset.mem_erase.mpr ⟨apart, Finset.mem_univ j⟩, here⟩
  have count := (Finset.card_le_card places).trans Finset.card_image_le
  rw [List.toFinset_card_of_nodup distinct, Finset.card_erase_of_mem (Finset.mem_univ k), Finset.card_univ,
    Fintype.card_fin] at count
  have positive := k.pos
  omega

variable [DecidableEq ι]

@[simp] theorem goto_buf (c : Cache ι β) (i : ι) (call : Call) : (c.goto i call).buf = c.buf := rfl

@[simp] theorem goto_call_self (c : Cache ι β) (i : ι) (call : Call) : (c.goto i call).call i = call := by
  simp [goto]

variable {j : ι}

theorem goto_call_of_ne (c : Cache ι β) (call : Call) (apart : j ≠ i) :
    (c.goto i call).call j = c.call j := by
  simp [goto, apart]

variable {b : Buf ι β} {call : Call}

theorem Steady.set_goto
    (dirty : (c.buf k).dirty = true → b.dirty = true ∧ b.addr = (c.buf k).addr)
    (changed : (c.buf k).changed = true → b.changed = true ∧ b.addr = (c.buf k).addr ∧ b.owner = (c.buf k).owner)
    (old : b.changed = true → (c.buf k).changed = true) : Steady c ((c.set k b).goto i call) := by
  constructor
  · intro l here
    rw [goto_buf]
    rcases eq_or_ne l k with rfl | apart
    · rw [set_buf_self]
      exact dirty here
    · rw [set_buf_of_ne apart]
      exact ⟨here, rfl⟩
  · intro l here
    rw [goto_buf]
    rcases eq_or_ne l k with rfl | apart
    · rw [set_buf_self]
      exact changed here
    · rw [set_buf_of_ne apart]
      exact ⟨here, rfl, rfl⟩
  · intro l here
    rw [goto_buf] at here
    rcases eq_or_ne l k with rfl | apart
    · rw [set_buf_self] at here
      exact old here
    · rwa [set_buf_of_ne apart] at here

omit [DecidableEq ι] in
theorem coherent_zero [Fintype ι] [Inhabited β] (disk : Addr → β) : Coherent (zero : Cache ι β) disk disk where
  unique _ _ _ dev := absurd rfl dev
  refs k := by simp [zero, Call.refs]
  ok k := by
    constructor
    · exact fun own => absurd rfl own
    · exact fun dirty => nomatch dirty
    · exact fun change => nomatch change
    · exact fun valid => nomatch valid
    · exact fun valid => nomatch valid
  fresh a _ := .inl rfl

variable {disk view : Addr → β}

section Coherent
variable [Fintype ι]

omit [DecidableEq ι] in
theorem Coherent.refcnt_pos (inv : Coherent c disk view) (has : c.Has i k a) : 0 < (c.buf k).refcnt := by
  rw [inv.refs k]
  rcases has.2 with own | waits
  · rw [own]
    exact Nat.lt_add_left _ Nat.one_pos
  · have mine := le_sum (fun j => (c.call j).refs k) i
    have one : (c.call i).refs k = 1 := by rw [waits]; exact if_pos rfl
    omega

omit [DecidableEq ι] in
theorem Coherent.data_eq (inv : Coherent c disk view) (own : (c.buf k).owner = some i) (dev : (c.buf k).addr.1 ≠ 0) :
    (c.buf k).data = view (c.buf k).addr :=
  (inv.ok k).data ((inv.ok k).locked (by rw [own]; exact Option.some_ne_none i)) dev

theorem Coherent.move (inv : Coherent c disk view)
    (unique : b.addr = (c.buf k).addr ∨ ∀ j, j ≠ k → (c.buf j).addr ≠ b.addr)
    (refs : ∀ j, (if j = k then b.refcnt else (c.buf j).refcnt) + (c.call i).refs j +
        (c.buf j).owner.isSome.toNat = (c.buf j).refcnt + call.refs j +
        (if j = k then b.owner.isSome.toNat else (c.buf j).owner.isSome.toNat))
    (ok : BufOk view b)
    (kept : ∀ a, Keeps (c.buf k) a → Keeps b a) : Coherent ((c.set k b).goto i call) disk view where
  unique j l same dev := by
    simp only [goto_buf] at same dev
    rcases eq_or_ne j k with rfl | first <;> rcases eq_or_ne l j with rfl | second
    · rfl
    · rw [set_buf_self] at same dev
      rw [set_buf_of_ne second] at same
      rcases unique with old | new
      · rw [old] at same dev
        exact inv.unique j l same dev
      · exact absurd same.symm (new l second)
    · rfl
    · rw [set_buf_of_ne first] at same dev
      rcases eq_or_ne l k with rfl | third
      · rw [set_buf_self] at same
        rcases unique with old | new
        · exact inv.unique j l (same.trans old) dev
        · exact absurd same (new j first)
      · rw [set_buf_of_ne third] at same
        exact inv.unique j l same dev
  refs j := by
    have total := sum_change (f := fun p => (((c.set k b).goto i call).call p).refs j)
      (g := fun p => (c.call p).refs j) i fun p apart => by rw [goto_call_of_ne _ _ apart]; rfl
    simp only [goto_call_self, goto_buf] at total ⊢
    have before := inv.refs j
    have change := refs j
    rcases eq_or_ne j k with rfl | apart
    · simp only [if_true] at change
      rw [set_buf_self]
      omega
    · simp only [if_neg apart] at change
      rw [set_buf_of_ne apart]
      omega
  ok j := by
    rw [goto_buf]
    rcases eq_or_ne j k with rfl | apart
    · rwa [set_buf_self]
    · rw [set_buf_of_ne apart]
      exact inv.ok j
  fresh a dev := by
    refine (inv.fresh a dev).imp_right fun ⟨j, keeps⟩ => ⟨j, ?_⟩
    rw [goto_buf]
    rcases eq_or_ne j k with rfl | apart
    · rw [set_buf_self]
      exact kept a keeps
    · rwa [set_buf_of_ne apart]

end Coherent

variable {l : Fin NBUF} {disk' : Addr → β} {out : (Addr → β) × Cache ι β} {data : β}

section Sections
variable {c' : Cache ι β}

theorem bget_cases (taken : c.bget i a k = some c') :
    c.call i = .idle ∧ (((c.buf k).addr = a ∧
        c' = (c.set k { c.buf k with refcnt := (c.buf k).refcnt + 1 }).goto i (.waiting k)) ∨
      ((∀ j, (c.buf j).addr ≠ a) ∧ (c.buf k).refcnt = 0 ∧ (c.buf k).dirty = false ∧
        c' = (c.set k { c.buf k with addr := a, valid := false, dirty := false, refcnt := 1 }).goto i
          (.waiting k))) := by
  obtain ⟨idle, taken⟩ := Option.ite_none_right_eq_some.mp taken
  refine ⟨idle, ?_⟩
  split at taken
  next hit =>
    cases taken
    exact .inl ⟨hit, rfl⟩
  next =>
    obtain ⟨free, rfl⟩ := Transition.of_guard taken
    exact .inr ⟨free.1, free.2.1, free.2.2, rfl⟩

theorem bget_has (taken : c.bget i a k = some c') : c'.Has i k a := by
  obtain ⟨-, ⟨hit, rfl⟩ | ⟨-, -, -, rfl⟩⟩ := bget_cases taken
  · exact ⟨by simpa using hit, .inr (goto_call_self _ _ _)⟩
  · exact ⟨by simp, .inr (goto_call_self _ _ _)⟩

theorem bget_call (taken : c.bget i a k = some c') :
    c'.call i = .waiting k ∧ ∀ j, j ≠ i → c'.call j = c.call j := by
  obtain ⟨-, ⟨-, rfl⟩ | ⟨-, -, -, rfl⟩⟩ := bget_cases taken
  · exact ⟨goto_call_self _ _ _, fun j apart => goto_call_of_ne _ _ apart⟩
  · exact ⟨goto_call_self _ _ _, fun j apart => goto_call_of_ne _ _ apart⟩

theorem acquiresleep_cases (taken : c.acquiresleep disk i = some out) :
    ∃ k, c.call i = .waiting k ∧ (c.buf k).owner = none ∧
      (((c.buf k).valid = true ∧ out = (disk, (c.set k { c.buf k with owner := some i }).goto i .idle)) ∨
        ((c.buf k).valid = false ∧ (c.buf k).addr.2 < FSSIZE ∧ out = ((iderw disk { c.buf k with owner := some i }).1,
          (c.set k (iderw disk { c.buf k with owner := some i }).2).goto i .idle))) := by
  unfold Cache.acquiresleep at taken
  split at taken
  next k waits =>
    refine ⟨k, waits, ?_⟩
    split at taken
    next free =>
      refine ⟨free, ?_⟩
      dsimp only at taken
      split at taken
      next valid =>
        cases taken
        exact .inl ⟨valid, rfl⟩
      next invalid =>
        split at taken
        next range =>
          cases taken
          exact .inr ⟨Bool.eq_false_iff.mpr invalid, range, rfl⟩
        next => cases taken
    next => cases taken
  next => cases taken

theorem releasesleep_eq (taken : c.releasesleep i k = some c') :
    c.call i = .idle ∧ (c.buf k).owner = some i ∧
      c' = (c.set k { c.buf k with owner := none }).goto i (.dropping k) := by
  obtain ⟨guard, rfl⟩ := Transition.of_guard taken
  exact ⟨guard.1, guard.2, rfl⟩

theorem drop_eq (taken : c.drop i = some c') :
    ∃ k, c.call i = .dropping k ∧ c' = (c.set k { c.buf k with refcnt := (c.buf k).refcnt - 1 }).goto i .idle := by
  unfold Cache.drop at taken
  split at taken
  next k drops =>
    cases taken
    exact ⟨k, drops, rfl⟩
  next => cases taken

theorem bwrite_eq (taken : c.bwrite disk i k data = some out) :
    c.call i = .idle ∧ (c.buf k).owner = some i ∧ (c.buf k).addr.2 < FSSIZE ∧
      out = (update disk (c.buf k).addr data,
        c.set k { c.buf k with data := data, dirty := false, changed := false, valid := true }) := by
  obtain ⟨guard, rfl⟩ := Transition.of_guard taken
  exact ⟨guard.1, guard.2.1, guard.2.2, rfl⟩

variable {a' : Addr}

theorem Has.set_goto (has : c.Has j l a')
    (addr : l = k → b.addr = (c.buf k).addr)
    (owner : l = k → (c.buf k).owner = some j → b.owner = some j)
    (waits : j = i → c.call i = .waiting l → call = .waiting l ∨ (l = k ∧ b.owner = some i)) :
    ((c.set k b).goto i call).Has j l a' := by
  have here : (((c.set k b).goto i call).buf l).addr = a' := by
    rw [goto_buf]
    rcases eq_or_ne l k with rfl | apart
    · rw [set_buf_self, addr rfl, has.1]
    · rw [set_buf_of_ne apart, has.1]
  refine ⟨here, ?_⟩
  rw [goto_buf]
  rcases has.2 with own | waiting
  · left
    rcases eq_or_ne l k with rfl | apart
    · rw [set_buf_self]
      exact owner rfl own
    · rw [set_buf_of_ne apart]
      exact own
  · rcases eq_or_ne j i with rfl | other
    · rcases waits rfl waiting with still | ⟨rfl, own⟩
      · exact .inr (by rw [goto_call_self]; exact still)
      · exact .inl (by rw [set_buf_self]; exact own)
    · exact .inr (by rw [goto_call_of_ne _ _ other]; exact waiting)

variable [Fintype ι]

omit [DecidableEq ι] in
theorem Coherent.nobody_of_free (inv : Coherent c disk view) (free : (c.buf k).refcnt = 0) :
    (c.buf k).owner = none := by
  have count := inv.refs k
  cases own : (c.buf k).owner with
  | none => rfl
  | some j => rw [own, free] at count; simp at count

omit [DecidableEq ι] in
theorem Coherent.unchanged_of_nobody (inv : Coherent c disk view) (nobody : (c.buf k).owner = none) :
    (c.buf k).changed = false := by
  cases change : (c.buf k).changed with
  | false => rfl
  | true => exact absurd nobody ((inv.ok k).changed change)

theorem Coherent.bget (inv : Coherent c disk view) (taken : c.bget i a k = some c') : Coherent c' disk view := by
  obtain ⟨idle, ⟨hit, rfl⟩ | ⟨absent, free, clean, rfl⟩⟩ := bget_cases taken
  · refine inv.move (.inl rfl) (fun j => ?_) ?_ fun b keeps => keeps
    · rw [idle]
      rcases eq_or_ne j k with rfl | apart
      · simp only [if_true, Call.refs]
      · simp only [if_neg apart, Call.refs, if_neg apart.symm]
    · exact ⟨(inv.ok k).locked, (inv.ok k).dirty, (inv.ok k).changed, (inv.ok k).data, (inv.ok k).range⟩
  · have nobody := inv.nobody_of_free free
    have still := inv.unchanged_of_nobody nobody
    refine inv.move (.inr fun j _ => absent j) (fun j => ?_) ?_ fun b keeps => ?_
    · rw [idle]
      rcases eq_or_ne j k with rfl | apart
      · simp only [if_true, Call.refs, free]
      · simp only [if_neg apart, Call.refs, if_neg apart.symm]
    · constructor
      · intro own; exact absurd nobody own
      · intro dirty; cases dirty
      · intro change; rw [still] at change; cases change
      · intro valid; cases valid
      · intro valid; cases valid
    · rcases keeps.2.2 with dirty | change
      · rw [clean] at dirty; cases dirty
      · rw [still] at change; cases change

theorem Coherent.steady_bget (inv : Coherent c disk view) (taken : c.bget i a k = some c') : Steady c c' := by
  obtain ⟨-, ⟨-, rfl⟩ | ⟨-, free, clean, rfl⟩⟩ := bget_cases taken
  · exact Steady.set_goto (fun dirty => ⟨dirty, rfl⟩) (fun change => ⟨change, rfl, rfl⟩) id
  · have still := inv.unchanged_of_nobody (inv.nobody_of_free free)
    refine Steady.set_goto (fun dirty => ?_) (fun change => ?_) id
    · rw [clean] at dirty; cases dirty
    · rw [still] at change; cases change

theorem Coherent.has_bget (inv : Coherent c disk view) (has : c.Has j l a')
    (taken : c.bget i a k = some c') : c'.Has j l a' := by
  obtain ⟨idle, ⟨-, rfl⟩ | ⟨-, free, -, rfl⟩⟩ := bget_cases taken
  · refine has.set_goto (fun _ => rfl) (fun _ own => own) fun _ waits => ?_
    rw [idle] at waits; cases waits
  · have apart : l ≠ k := fun same => by
      have busy := inv.refcnt_pos has
      rw [same, free] at busy
      exact Nat.lt_irrefl 0 busy
    refine has.set_goto (fun same => absurd same apart) (fun same => absurd same apart) fun _ waits => ?_
    rw [idle] at waits; cases waits

theorem Coherent.acquiresleep (inv : Coherent c disk view)
    (dev : ∀ k, c.call i = .waiting k → (c.buf k).addr.1 ≠ 0)
    (taken : c.acquiresleep disk i = some out) : out.1 = disk ∧ Coherent out.2 disk view := by
  obtain ⟨k, waits, free, ⟨valid, rfl⟩ | ⟨invalid, range, rfl⟩⟩ := acquiresleep_cases taken
  all_goals
    have still := inv.unchanged_of_nobody free
    have refs : ∀ j, (if j = k then (c.buf k).refcnt else (c.buf j).refcnt) + (c.call i).refs j +
        (c.buf j).owner.isSome.toNat = (c.buf j).refcnt + Call.idle.refs j +
        (if j = k then (some i).isSome.toNat else (c.buf j).owner.isSome.toNat) := by
      intro j
      rw [waits]
      rcases eq_or_ne j k with rfl | apart
      · simp [Call.refs, free]
      · simp [Call.refs, apart, apart.symm]
  · refine ⟨rfl, inv.move (.inl rfl) refs ?_ fun a keeps => keeps⟩
    exact ⟨fun _ => valid, (inv.ok k).dirty, (fun change => by rw [still] at change; cases change), (inv.ok k).data, (inv.ok k).range⟩
  · have clean : (c.buf k).dirty = false := by
      cases dirty : (c.buf k).dirty with
      | false => rfl
      | true => rw [(inv.ok k).dirty dirty] at invalid; cases invalid
    have same : view (c.buf k).addr = disk (c.buf k).addr := by
      rcases inv.fresh (c.buf k).addr (dev k waits) with same | ⟨j, addr, valid, -⟩
      · exact same
      · have only := inv.unique j k addr (by rw [addr]; exact dev k waits)
        rw [only, invalid] at valid
        cases valid
    have read : iderw disk { c.buf k with owner := some i } =
        (disk, { c.buf k with owner := some i, data := disk (c.buf k).addr, valid := true }) := by
      rw [iderw]
      simp [clean]
    rw [read]
    refine ⟨rfl, inv.move (.inl rfl) refs ?_ fun a keeps => ?_⟩
    · exact ⟨fun _ => rfl, fun _ => rfl, (fun change => by rw [still] at change; cases change), fun _ _ => same.symm, fun _ => range⟩
    · exact ⟨keeps.1, rfl, keeps.2.2⟩

theorem Coherent.steady_acquiresleep (inv : Coherent c disk view)
    (taken : c.acquiresleep disk i = some out) : Steady c out.2 := by
  obtain ⟨k, -, free, ⟨-, rfl⟩ | ⟨invalid, -, rfl⟩⟩ := acquiresleep_cases taken
  all_goals have still := inv.unchanged_of_nobody free
  · exact Steady.set_goto (fun dirty => ⟨dirty, rfl⟩) (fun change => by rw [still] at change; cases change) id
  · refine Steady.set_goto (fun dirty => ?_) (fun change => ?_) fun change => ?_
    · rw [(inv.ok k).dirty dirty] at invalid; cases invalid
    · rw [still] at change; cases change
    · rw [iderw] at change
      split at change <;> exact change

omit [Fintype ι] in
theorem has_acquiresleep (has : c.Has j l a')
    (taken : c.acquiresleep disk i = some out) : out.2.Has j l a' := by
  obtain ⟨k, waits, free, ⟨-, rfl⟩ | ⟨-, -, rfl⟩⟩ := acquiresleep_cases taken
  · refine has.set_goto (fun _ => rfl) (fun _ own => ?_) fun same waiting => ?_
    · rw [free] at own; cases own
    · rw [waits] at waiting
      cases waiting
      exact .inr ⟨rfl, rfl⟩
  · have fields : (iderw disk { c.buf k with owner := some i }).2.addr = (c.buf k).addr ∧
        (iderw disk { c.buf k with owner := some i }).2.owner = some i := by
      rw [iderw]
      split <;> exact ⟨rfl, rfl⟩
    refine has.set_goto (fun _ => fields.1) (fun _ own => ?_) fun same waiting => ?_
    · rw [free] at own; cases own
    · rw [waits] at waiting
      cases waiting
      exact .inr ⟨rfl, fields.2⟩

theorem Coherent.releasesleep (inv : Coherent c disk view) (logged : (c.buf k).changed = false)
    (taken : c.releasesleep i k = some c') : Coherent c' disk view := by
  obtain ⟨idle, own, rfl⟩ := releasesleep_eq taken
  refine inv.move (.inl rfl) (fun j => ?_) ?_ fun a keeps => keeps
  · rw [idle]
    rcases eq_or_ne j k with rfl | apart
    · simp [Call.refs, own]
    · simp [Call.refs, apart, apart.symm]
  · refine ⟨fun own => absurd rfl own, (inv.ok k).dirty, fun change => ?_, (inv.ok k).data, (inv.ok k).range⟩
    rw [logged] at change
    cases change

omit [Fintype ι] in
theorem steady_releasesleep (logged : (c.buf k).changed = false) (taken : c.releasesleep i k = some c') :
    Steady c c' := by
  obtain ⟨-, -, rfl⟩ := releasesleep_eq taken
  exact Steady.set_goto (fun dirty => ⟨dirty, rfl⟩) (fun change => by rw [logged] at change; cases change) id

omit [Fintype ι] in
theorem has_releasesleep (has : c.Has j l a') (other : j = i → l ≠ k)
    (taken : c.releasesleep i k = some c') : c'.Has j l a' := by
  obtain ⟨idle, own, rfl⟩ := releasesleep_eq taken
  refine has.set_goto (fun _ => rfl) (fun same mine => ?_) fun _ waits => ?_
  · rw [own] at mine
    cases mine
    exact absurd same (other rfl)
  · rw [idle] at waits; cases waits

theorem Coherent.drop (inv : Coherent c disk view) (taken : c.drop i = some c') : Coherent c' disk view := by
  obtain ⟨k, drops, rfl⟩ := drop_eq taken
  refine inv.move (.inl rfl) (fun j => ?_) ?_ fun a keeps => keeps
  · rw [drops]
    rcases eq_or_ne j k with rfl | apart
    · have mine := le_sum (fun p => (c.call p).refs j) i
      have one : (c.call i).refs j = 1 := by rw [drops]; exact if_pos rfl
      have count := inv.refs j
      simp only [if_true, Call.refs]
      omega
    · simp [Call.refs, apart, apart.symm]
  · exact ⟨(inv.ok k).locked, (inv.ok k).dirty, (inv.ok k).changed, (inv.ok k).data, (inv.ok k).range⟩

omit [Fintype ι] in
theorem steady_drop (taken : c.drop i = some c') : Steady c c' := by
  obtain ⟨k, -, rfl⟩ := drop_eq taken
  exact Steady.set_goto (fun dirty => ⟨dirty, rfl⟩) (fun change => ⟨change, rfl, rfl⟩) id

omit [Fintype ι] in
theorem has_drop (has : c.Has j l a') (taken : c.drop i = some c') :
    c'.Has j l a' := by
  obtain ⟨k, drops, rfl⟩ := drop_eq taken
  refine has.set_goto (fun _ => rfl) (fun _ own => own) fun _ waits => ?_
  rw [drops] at waits; cases waits

end Sections

section Stores
variable {view' : Addr → β}

omit [DecidableEq ι] in
theorem Has.set (has : c.Has j l a)
    (addr : b.addr = (c.buf k).addr) (owner : b.owner = (c.buf k).owner) : (c.set k b).Has j l a := by
  rcases eq_or_ne l k with rfl | apart
  · simpa only [Has, set_buf_self, set_call, addr, owner] using has
  · simpa only [Has, set_buf_of_ne apart, set_call] using has

variable [Fintype ι]

omit [DecidableEq ι] in
theorem Coherent.store (inv : Coherent c disk view) (own : (c.buf k).owner = some i)
    (dev : (c.buf k).addr.1 ≠ 0) (addr : b.addr = (c.buf k).addr) (refcnt : b.refcnt = (c.buf k).refcnt)
    (owner : b.owner = (c.buf k).owner) (valid : b.valid = true) (range : b.addr.2 < FSSIZE) (data : b.data = view' (c.buf k).addr)
    (views : ∀ a, a ≠ (c.buf k).addr → view' a = view a) (disks : ∀ a, a ≠ (c.buf k).addr → disk' a = disk a)
    (kept : view' (c.buf k).addr = disk' (c.buf k).addr ∨ b.dirty = true ∨ b.changed = true) :
    Coherent (c.set k b) disk' view' where
  unique j l same here := by
    have addrs : ∀ j, ((c.set k b).buf j).addr = (c.buf j).addr := fun j => by
      rcases eq_or_ne j k with rfl | apart
      · rw [set_buf_self, addr]
      · rw [set_buf_of_ne apart]
    rw [addrs] at here
    rw [addrs, addrs] at same
    exact inv.unique j l same here
  refs j := by
    rcases eq_or_ne j k with rfl | apart
    · rw [set_buf_self, refcnt, owner]
      exact inv.refs j
    · rw [set_buf_of_ne apart]
      exact inv.refs j
  ok j := by
    rcases eq_or_ne j k with rfl | apart
    · rw [set_buf_self]
      refine ⟨fun _ => valid, fun _ => valid, fun _ => ?_, (fun _ _ => by rw [data, addr]), fun _ => range⟩
      rw [owner, own]
      exact Option.some_ne_none i
    · rw [set_buf_of_ne apart]
      refine ⟨(inv.ok j).locked, (inv.ok j).dirty, (inv.ok j).changed, fun valid here => ?_, (inv.ok j).range⟩
      have other : (c.buf j).addr ≠ (c.buf k).addr := fun same => apart (inv.unique j k same here)
      rw [views _ other]
      exact (inv.ok j).data valid here
  fresh a here := by
    rcases eq_or_ne a (c.buf k).addr with rfl | apart
    · refine kept.imp_right fun keeps => ⟨k, ?_⟩
      rw [set_buf_self]
      exact ⟨addr, valid, keeps⟩
    · rw [views a apart, disks a apart]
      refine (inv.fresh a here).imp_right fun ⟨j, keeps⟩ => ⟨j, ?_⟩
      have other : j ≠ k := fun same => apart (same ▸ keeps.1).symm
      rwa [set_buf_of_ne other]

omit [DecidableEq ι] in
theorem Coherent.modify (inv : Coherent c disk view) (own : (c.buf k).owner = some i) (dev : (c.buf k).addr.1 ≠ 0)
    (data : β) : Coherent (c.modify k data) disk (update view (c.buf k).addr data) := by
  have valid := (inv.ok k).locked (by rw [own]; exact Option.some_ne_none i)
  exact inv.store own dev rfl rfl rfl valid ((inv.ok k).range valid) (by rw [update_self]) (fun a apart => update_of_ne apart _ _)
    (fun _ _ => rfl) (.inr (.inr rfl))

omit [DecidableEq ι] in
theorem Coherent.pin (inv : Coherent c disk view) (own : (c.buf k).owner = some i) (dev : (c.buf k).addr.1 ≠ 0) :
    Coherent (c.pin k) disk view := by
  have valid := (inv.ok k).locked (by rw [own]; exact Option.some_ne_none i)
  exact inv.store own dev rfl rfl rfl valid ((inv.ok k).range valid) (inv.data_eq own dev) (fun _ _ => rfl) (fun _ _ => rfl) (.inr (.inl rfl))

theorem Coherent.bwrite (inv : Coherent c disk view)
    (dev : (c.buf k).addr.1 ≠ 0) (taken : c.bwrite disk i k data = some out) :
    Coherent out.2 out.1 (update view (c.buf k).addr data) := by
  obtain ⟨-, own, range, rfl⟩ := bwrite_eq taken
  exact inv.store own dev rfl rfl rfl rfl range (by rw [update_self])
    (fun a apart => update_of_ne apart _ _) (fun a apart => update_of_ne apart _ _)
    (.inl (by simp))

end Stores

end Cache

end Xv6
