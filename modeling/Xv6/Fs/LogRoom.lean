import Xv6.Fs.Alloc
import Xv6.Log.Log

/-! How often `writei` calls `log_write`, and the check of `log_write` that the log has room. No function
of `fs.c` reads the log, so the check is made on the trace of a run. -/

namespace Xv6.Fs
open Lib

/-- The log after the events, the last of which comes first. There is none if `log_write` panics. -/
def replay (log : Log) : List Event → Option Log
  | [] => some log
  | .logWrite b :: earlier => (replay log earlier).bind fun log => if log.tooBig then none else some (log.record b)
  | .beginOp :: earlier | .endOp :: earlier | .iput :: earlier => replay log earlier

/-- The code with the check of `log_write`, from `log`. -/
def logged {α : Type} (log : Log) (code : FsM α) : FsM α := do
  let s ← get
  let r ← code
  let t ← get
  if (replay log (t.trace.take (t.trace.length - s.trace.length))).isNone then
    panic "too big a transaction"
  else
    return r

section Logged

variable {α β : Type} {log : Log} {events : List Event} {code : FsM α} {s t : State} {r : α} {n l : Nat}

/-- Code that adds at most `n` events to the trace. -/
structure Logs (n : Nat) (code : FsM α) : Prop where
  run : ∀ s, wp code (fun _ t => ∃ events, t.trace = events ++ s.trace ∧ events.length ≤ n) (fun _ => True) s

namespace Logs

theorem bind {next : α → FsM β} (first : Logs n code) (m : Nat) (rest : ∀ a, Logs m (next a)) (le : n + m ≤ l) :
    Logs l (code >>= next) where
  run s := by
    refine wp_seq (first.run s) (fun _ stop => stop) fun a t earlier => ?_
    obtain ⟨old, trace, few⟩ := earlier
    refine wp_mono ((rest a).run t) (fun _ u later => ?_) fun _ stop => stop
    obtain ⟨new, trace', few'⟩ := later
    refine ⟨new ++ old, by rw [trace', trace, List.append_assoc], ?_⟩
    rw [List.length_append]
    omega

theorem after {next : α → FsM β} (first : Logs 0 code) (rest : ∀ a, Logs n (next a)) : Logs n (code >>= next) :=
  first.bind n rest (Nat.le_of_eq (Nat.zero_add n))

theorem pure (a : α) : Logs n (Pure.pure a : FsM α) := ⟨fun _ => wp_pure.mpr ⟨[], rfl, Nat.zero_le _⟩⟩

theorem get : Logs 0 (MonadState.get : FsM State) := ⟨fun _ => wp_get.mpr ⟨[], rfl, Nat.le_refl _⟩⟩

theorem throw (e : Stop) : Logs n (MonadExcept.throw e : FsM α) := ⟨fun _ => wp_throw.mpr trivial⟩

theorem getInode (k : Fin NINODE) : Logs 0 (Fs.getInode k) := ⟨fun _ => wp_getInode.mpr ⟨[], rfl, Nat.le_refl _⟩⟩

theorem setInode (k : Fin NINODE) (ip : Inode) : Logs 0 (Fs.setInode k ip) :=
  ⟨fun _ => wp_setInode.mpr ⟨[], rfl, Nat.le_refl _⟩⟩

theorem bread (b : Nat) : Logs 0 (Fs.bread b) := ⟨fun _ => wp_bread.mpr ⟨[], rfl, Nat.le_refl _⟩⟩

theorem logWrite (b : Nat) (data : Block) : Logs 1 (Fs.logWrite b data) := ⟨fun s => by
  unfold Fs.logWrite
  rw [wp_bind, wp_get]
  split
  · exact wp_panic.mpr trivial
  · exact wp_modify.mpr ⟨[.logWrite b], rfl, Nat.le_refl _⟩⟩

theorem ballocFrom (b count : Nat) : Logs 2 (Fs.ballocFrom b count) := by
  induction count generalizing b with
  | zero => exact throw _
  | succ count ih =>
    unfold Fs.ballocFrom
    refine get.after fun s => (bread _).after fun bp => ?_
    split
    next => exact (logWrite ..).bind 1 (fun _ => (logWrite ..).bind 0 (fun _ => pure _) (Nat.le_refl 1)) (Nat.le_refl 2)
    next =>
      split
      next => exact throw _
      next => exact ih _

theorem balloc : Logs 2 Fs.balloc := get.after fun _ => ballocFrom ..

theorem bmapIndirect (k : Fin NINODE) : Logs 2 (Fs.bmapIndirect k) := by
  unfold Fs.bmapIndirect
  refine (getInode k).after fun ip => ?_
  split
  next => exact balloc.bind 0 (fun b => (setInode ..).after fun _ => pure _) (Nat.le_refl 2)
  next => exact pure _

theorem bmap (k : Fin NINODE) (bn : Nat) : Logs 5 (Fs.bmap k bn) := by
  unfold Fs.bmap
  refine (getInode k).after fun ip => ?_
  split
  next =>
    split
    next => exact balloc.bind 0 (fun b => (setInode ..).after fun _ => pure _) (Nat.le_add_right 2 3)
    next => exact pure _
  next =>
    split
    next =>
      refine (bmapIndirect k).bind 3 (fun a => (bread a).after fun bp => ?_) (Nat.le_refl 5)
      dsimp only
      split
      next => exact balloc.bind 1 (fun b => (logWrite ..).bind 0 (fun _ => pure _) (Nat.le_refl 1)) (Nat.le_refl 3)
      next => exact pure _
    next => exact throw _

end Logs

end Logged

/-- The number of blocks that `n` bytes from `off` are in. -/
def touched (off n : Nat) : Nat := if n = 0 then 0 else (off % BSIZE + n - 1) / BSIZE + 1

theorem Logs.writeiLoop (k : Fin NINODE) (fuel off : Nat) (src : List UInt8) :
    Logs (6 * touched off src.length) (writeiLoop k fuel off src) := by
  induction fuel generalizing off src with
  | zero => exact pure _
  | succ fuel ih =>
    unfold Fs.writeiLoop
    split
    next => exact pure _
    next some =>
      refine (bmap k _).bind _ (fun b => (bread b).after fun bp => (logWrite ..).bind _ (fun _ => ih ..) (Nat.le_refl _)) ?_
      rw [List.length_drop, touched, touched, if_neg some]
      unfold BSIZE
      split <;> omega

theorem Logs.growSize (k : Fin NINODE) (off n : Nat) : Logs 1 (growSize k off n) := by
  unfold Fs.growSize iupdate
  refine (getInode k).after fun ip => ?_
  split
  next =>
    refine (setInode ..).after fun _ => get.after fun _ => (getInode k).after fun _ => (bread _).after fun _ => ?_
    exact logWrite ..
  next => exact pure _

end Xv6.Fs
