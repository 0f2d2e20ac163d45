import ZephyrRust.Lib.Lock
import ZephyrRust.Proofs.Blocking.Moves

/-!
# `ZephyrRust.Proofs.Blocking.Locked`: the spin locks of the blocking pool exclude

`inSlot` and `inWaiters` read off a program counter which critical sections a party is in.
`Locked` says that a party in a critical section holds the lock of that section. A lock has
one holder, so two parties are never in the critical sections of one lock.

An operation takes a free lock, releases the lock of the section that its party is in, or
leaves the lock. `FutMove.slotLock`, `FutMove.waitersLock` and their counterparts for workers
say so, and `Locked` follows for all parties.
-/

set_option autoImplicit false

namespace ZephyrRust.Blocking

open ZephyrRust.Lib (LockStep)

variable {c : Config} {s s' : St c}

/-- The slot whose lock a future holds. -/
def FutPc.inSlot : FutPc c → Option (Fin c.slots)
  | .cancel _ .remove => none
  | .cancel _ .lock => none
  | .cancel i _ => some i
  | _ => none

/-- A future holds the lock of `waiters`. -/
def FutPc.inWaiters : FutPc c → Prop
  | .claim _ .lock => False
  | .claim _ _ => True
  | .ready _ .wake => True
  | .ready _ .unlock => True
  | .discard _ .wake => True
  | .discard _ .unlock => True
  | _ => False

/-- The slot whose lock a worker holds. -/
def WrkPc.inSlot : WrkPc c → Option (Fin c.slots)
  | .take _ _ .lock => none
  | .take _ i _ => some i
  | .finish _ _ _ _ .lock => none
  | .finish _ i _ _ _ => some i
  | _ => none

/-- A worker holds the lock of `waiters`. -/
def WrkPc.inWaiters : WrkPc c → Prop
  | .release .wake => True
  | .release .unlock => True
  | _ => False

/-- A party in a critical section holds its lock. -/
structure Locked (s : St c) : Prop where
  slotFut : ∀ f i, (s.fut f).pc.inSlot = some i → (s.slots i).lock = some (.fut f)
  slotWrk : ∀ k i, (s.wrk k).inSlot = some i → (s.slots i).lock = some (.wrk k)
  waitFut : ∀ f, (s.fut f).pc.inWaiters → s.waitersLock = some (.fut f)
  waitWrk : ∀ k, (s.wrk k).inWaiters → s.waitersLock = some (.wrk k)

/-- The drop of a future and a worker are never both in the critical section of one slot. -/
theorem Locked.excludes (h : Locked s) {f : c.Fut} {k : Fin c.threads}
    {i : Fin c.slots} (hf : (s.fut f).pc.inSlot = some i) (hk : (s.wrk k).inSlot = some i) :
    False := by
  have hl := (h.slotFut f i hf).symm.trans (h.slotWrk k i hk)
  simp at hl

/-- What an operation of a future does to the lock of a slot. Only its drop takes it. -/
theorem FutMove.slotLock {f : c.Fut} (hm : FutMove s f s') (i : Fin c.slots) :
    LockStep (.fut f) (s.slots i).lock (s'.slots i).lock ((s.fut f).pc.inSlot = some i)
      ((s'.fut f).pc.inSlot = some i) := by
  cases hm with
  | @cancelLock j hpc hlock =>
    by_cases hi : i = j
    · subst hi
      exact .take hlock (by simp)
    · exact .keep (by simp [hi]) (by simp [FutPc.inSlot, Ne.symm hi])
  | @cancelOrphaned j hpc | @cancelFinished j hpc =>
    by_cases hi : i = j
    · subst hi
      exact .release (by simp [hpc, FutPc.inSlot]) (by simp [FutPc.inSlot]) (by simp)
    · exact .keep (by simp [hi]) (by simp [FutPc.inSlot])
  | @claimTake w j hpc | @storeQueued w j hpc | @setShared w j hpc | @setRunner w j hpc
  | @registerFirst w j hpc | @register w j hpc | @readyStore v j hpc | @cancelClear j hpc
  | @cancelStore j hpc | @discardStore b j hpc =>
    -- These write another field of a slot.
    refine .keep ?_ (by simp [hpc, FutPc.inSlot])
    by_cases hi : i = j <;> simp [hi]
  | _ => exact .keep rfl (by simp_all [FutPc.inSlot])

/-- What an operation of a future does to the lock of `waiters`. -/
theorem FutMove.waitersLock {f : c.Fut} (hm : FutMove s f s') :
    LockStep (.fut f) s.waitersLock s'.waitersLock (s.fut f).pc.inWaiters
      (s'.fut f).pc.inWaiters := by
  cases hm with
  | claimLock hpc hlock | readyLock hpc hlock | discardLock hpc hlock =>
    exact .take hlock rfl
  | claimNone hpc | claimSome hpc | readyUnlock hpc | discardUnlock hpc =>
    exact .release (by simp [hpc, FutPc.inWaiters]) (by simp [FutPc.inWaiters]) rfl
  | _ => exact .keep rfl (by simp_all [FutPc.inWaiters])

/-- What an operation of a worker does to the lock of a slot. -/
theorem WrkMove.slotLock {k : Fin c.threads} (hm : WrkMove s k s') (i : Fin c.slots) :
    LockStep (.wrk k) (s.slots i).lock (s'.slots i).lock ((s.wrk k).inSlot = some i)
      ((s'.wrk k).inSlot = some i) := by
  cases hm with
  | @takeLock t j hpc hlock | @finishLock t j op v hpc hlock =>
    by_cases hi : i = j
    · subst hi
      exact .take hlock (by simp)
    · exact .keep (by simp [hi]) (by simp [WrkPc.inSlot, Ne.symm hi])
  | @takeNone t j hpc | @takeSome t j op hpc | @finishAbandon t j op v hpc
  | @finishUnlock t j op v hpc =>
    by_cases hi : i = j
    · subst hi
      exact .release (by simp [hpc, WrkPc.inSlot]) (by simp [WrkPc.inSlot]) (by simp)
    · exact .keep (by simp [hi]) (by simp [WrkPc.inSlot])
  | @finishStore t j op v hpc | @wake j op hpc | @releaseStore j hpc =>
    refine .keep ?_ (by simp [hpc, WrkPc.inSlot])
    by_cases hi : i = j <;> simp [hi]
  | _ => exact .keep rfl (by simp_all [WrkPc.inSlot])

/-- What an operation of a worker does to the lock of `waiters`. -/
theorem WrkMove.waitersLock {k : Fin c.threads} (hm : WrkMove s k s') :
    LockStep (.wrk k) s.waitersLock s'.waitersLock (s.wrk k).inWaiters
      (s'.wrk k).inWaiters := by
  cases hm with
  | releaseLock hpc hlock => exact .take hlock rfl
  | releaseUnlock hpc =>
    exact .release (by simp [hpc, WrkPc.inWaiters]) (by simp [WrkPc.inWaiters]) rfl
  | _ => exact .keep rfl (by simp_all [WrkPc.inWaiters])

/-- An operation of a future keeps `Locked`. -/
theorem Locked.futMove {f : c.Fut} (h : Locked s) (hm : FutMove s f s') : Locked s' where
  slotFut g i hg := by
    by_cases hgf : g = f
    · subst hgf
      exact (hm.slotLock i).self (h.slotFut g i) hg
    · rw [hm.fut_of_ne hgf] at hg
      exact (hm.slotLock i).other (h.slotFut f i) (by simp [hgf]) (h.slotFut g i hg)
  slotWrk k i hk := by
    rcases hm.wrk k with he | ⟨-, hrecv⟩
    · rw [he] at hk
      exact (hm.slotLock i).other (h.slotFut f i) (by simp) (h.slotWrk k i hk)
    · rw [hrecv] at hk
      cases hk
  waitFut g hg := by
    by_cases hgf : g = f
    · subst hgf
      exact hm.waitersLock.self (h.waitFut g) hg
    · rw [hm.fut_of_ne hgf] at hg
      exact hm.waitersLock.other (h.waitFut f) (by simp [hgf]) (h.waitFut g hg)
  waitWrk k hk := by
    rcases hm.wrk k with he | ⟨-, hrecv⟩
    · rw [he] at hk
      exact hm.waitersLock.other (h.waitFut f) (by simp) (h.waitWrk k hk)
    · rw [hrecv] at hk
      exact hk.elim

/-- An operation of a worker keeps `Locked`. -/
theorem Locked.wrkMove {k : Fin c.threads} (h : Locked s) (hm : WrkMove s k s') :
    Locked s' where
  slotFut g i hg := by
    rw [(hm.fut g).1] at hg
    exact (hm.slotLock i).other (h.slotWrk k i) (by simp) (h.slotFut g i hg)
  slotWrk l i hl := by
    by_cases hlk : l = k
    · subst hlk
      exact (hm.slotLock i).self (h.slotWrk l i) hl
    · rw [hm.wrk_of_ne hlk] at hl
      exact (hm.slotLock i).other (h.slotWrk k i) (by simp [hlk]) (h.slotWrk l i hl)
  waitFut g hg := by
    rw [(hm.fut g).1] at hg
    exact hm.waitersLock.other (h.waitWrk k) (by simp) (h.waitFut g hg)
  waitWrk l hl := by
    by_cases hlk : l = k
    · subst hlk
      exact hm.waitersLock.self (h.waitWrk l) hl
    · rw [hm.wrk_of_ne hlk] at hl
      exact hm.waitersLock.other (h.waitWrk k) (by simp [hlk]) (h.waitWrk l hl)

/-- The start state has no party in a critical section. -/
theorem locked_init : Locked (init c) := by
  constructor <;> simp [init, Future.new, FutPc.inSlot, FutPc.inWaiters, WrkPc.inSlot,
    WrkPc.inWaiters]

theorem Locked.move (h : Locked s) (hm : Move s s') : Locked s' := by
  cases hm with
  | fut f hm => exact h.futMove hm
  | wrk k hm => exact h.wrkMove hm

end ZephyrRust.Blocking
