import Mathlib.Logic.Basic

/-!
# `ZephyrRust.Sys.Mutex`: the `k_mutex` wrapper

`zephyr::sys::sync::Mutex` wraps a kernel `k_mutex`, which is recursive: it has an owner and
a count of the levels that the owner has locked. The kernel runs each operation under its
own lock, so one call is one atomic step. A lock with `K_FOREVER` by a thread that has to
wait is a step that is not enabled.
-/

set_option autoImplicit false

namespace ZephyrRust.Sys

/-- A `k_mutex`: the thread that owns it, and `lock_count`. -/
structure Mutex (Tid : Type) where
  owner : Option Tid
  count : Nat
  deriving DecidableEq

namespace Mutex

variable {Tid : Type} [DecidableEq Tid]

/-- `Mutex::new`, that is `k_mutex_init`. -/
def new : Mutex Tid where
  owner := none
  count := 0

/-- `Mutex::lock`, that is `k_mutex_lock`, by thread `t` at a moment when it does not wait.
It takes the mutex, or one more level of it. `none` is a mutex of another thread: the call
waits, or it returns `-EBUSY` under `K_NO_WAIT`. -/
def lock (k : Mutex Tid) (t : Tid) : Option (Mutex Tid) :=
  match k.owner with
  | none => some { owner := some t, count := 1 }
  | some u => if u = t then some { k with count := k.count + 1 } else none

/-- `Mutex::unlock`, that is `k_mutex_unlock`, by thread `t`. It gives back one level.
`none` is the error on a mutex that `t` does not own (`-EINVAL` without an owner, `-EPERM`
with another one). -/
def unlock (k : Mutex Tid) (t : Tid) : Option (Mutex Tid) :=
  if k.owner = some t then
    if 1 < k.count then some { k with count := k.count - 1 } else some new
  else none

/-- The lock of a free mutex takes it, and the lock of one's own mutex adds a level. -/
theorem lock_eq_some {k k' : Mutex Tid} {t : Tid} (h : k.lock t = some k') :
    k.owner = none ∧ k' = { owner := some t, count := 1 } ∨
    k.owner = some t ∧ k' = { owner := some t, count := k.count + 1 } := by
  obtain ⟨owner, count⟩ := k
  cases owner with
  | none =>
    cases h
    exact Or.inl ⟨rfl, rfl⟩
  | some u =>
    simp only [lock] at h
    split at h
    · rename_i hu
      subst hu
      cases h
      exact Or.inr ⟨rfl, rfl⟩
    · cases h

/-- The owner of more than one level keeps the mutex. -/
theorem unlock_of_lt {k k' : Mutex Tid} {t : Tid} (ho : k.owner = some t)
    (hc : 1 < k.count) (h : k.unlock t = some k') : k' = { k with count := k.count - 1 } := by
  rw [unlock, if_pos ho, if_pos hc] at h
  exact (Option.some.inj h).symm

/-- The owner of the last level gives the mutex up. -/
theorem unlock_of_le {k k' : Mutex Tid} {t : Tid} (ho : k.owner = some t)
    (hc : k.count ≤ 1) (h : k.unlock t = some k') : k' = new := by
  rw [unlock, if_pos ho, if_neg (Nat.not_lt.mpr hc)] at h
  exact (Option.some.inj h).symm

/-- An unlock fails exactly when the thread does not own the mutex. -/
theorem unlock_eq_none {k : Mutex Tid} {t : Tid} :
    k.unlock t = none ↔ k.owner ≠ some t := by
  unfold unlock
  split
  · rename_i ho
    split <;> simp [ho]
  · rename_i ho
    simp [ho]

end Mutex

end ZephyrRust.Sys
